import Reckoner.Native.Streamed
import Reckoner.Proofs.Context.Backends
import Reckoner.Proofs.Expr.Diagnosis
import Reckoner.Proofs.Page.Refusal

/-! The errors of compiling: a formula is to blame exactly if it cannot be read, and then the context
is as it was. All other errors are those of native code that is not made or not placed. -/
namespace Reckoner

theorem Pool.Denied.kind {p : Pool} {e : Error} (h : p.Denied e) : e.kind = .allocation := by
  obtain ⟨n, r, -, rfl⟩ := h
  rfl

theorem Error.isRecoverable_of_kind {e : Error} (h : e.kind = .allocation ∨ e.kind = .internal) :
    e.isRecoverable = false := by
  unfold isRecoverable
  rcases h with h | h <;> rw [h]

namespace Context

variable {A : Arithmetic} {c : Context} {o : Options} {s : Scope} {source : String} {pack : Bool}
  {t : Expr} {e : Error}

theorem Installing.error {foundry : Foundry} {p : Native.Program} {after : Context}
    (h : c.Installing foundry p pack (.error e, after)) :
    (∃ reason, foundry.target.generate p = .error reason ∧ e = .internal (.note reason)) ∨
      foundry.pool.Denied e := by
  cases h with
  | notGenerated reason hcode => exact .inl ⟨reason, hcode, rfl⟩
  | notPlaced code hcode e pool hplace =>
    have houtcome := foundry.pool.place_outcome code pack
    rw [hplace] at houtcome
    exact .inr houtcome.denied

theorem compileScoped_error_of_parse (hparse : Expr.parse A s source = .ok t)
    (hresult : (c.compileScoped A o s source pack).result = .error e) :
    ∃ foundry, c.engine = .native foundry ∧
      ((∃ reason, foundry.target.generate ((t.fold A o).nativeProgram A o) = .error reason ∧
        e = .internal (.note reason)) ∨ foundry.pool.Denied e) := by
  cases hengine : c.engine with
  | soft =>
    rw [compileScoped_soft hengine hparse] at hresult
    contradiction
  | bytecode =>
    rw [compileScoped_bytecode hengine hparse] at hresult
    contradiction
  | native foundry =>
    have hcompile := compileScoped_native hengine hparse o pack
    rw [hresult] at hcompile
    exact ⟨foundry, rfl, hcompile.error⟩

def Willing (c : Context) : Prop :=
  ∀ foundry, c.engine = .native foundry → ∀ n r, foundry.pool.allocator.refuses n r = false

def Generates (c : Context) (p : Native.Program) : Prop :=
  ∀ foundry, c.engine = .native foundry → ∃ code, foundry.target.generate p = .ok code

theorem Willing.not_denied (h : c.Willing) {foundry : Foundry}
    (hengine : c.engine = .native foundry) : ¬ foundry.pool.Denied e := by
  rintro ⟨n, r, hrefuses, -⟩
  simp [h foundry hengine n r] at hrefuses

theorem compileScoped_ok_of_willing (hparse : Expr.parse A s source = .ok t) (hwilling : c.Willing)
    (hcode : c.Generates ((t.fold A o).nativeProgram A o)) (pack : Bool) :
    ∃ k, (c.compileScoped A o s source pack).result = .ok k := by
  cases hresult : (c.compileScoped A o s source pack).result with
  | ok k => exact ⟨k, rfl⟩
  | error e =>
    obtain ⟨foundry, hengine, hcause⟩ := compileScoped_error_of_parse hparse hresult
    rcases hcause with ⟨reason, hreason, -⟩ | hdenied
    · obtain ⟨code, hcode⟩ := hcode foundry hengine
      simp [hcode] at hreason
    · exact absurd hdenied (hwilling.not_denied hengine)

theorem isRecoverable_of_compileScoped (hparse : Expr.parse A s source = .ok t)
    (hresult : (c.compileScoped A o s source pack).result = .error e) :
    e.isRecoverable = false := by
  obtain ⟨foundry, -, ⟨reason, -, rfl⟩ | hdenied⟩ := compileScoped_error_of_parse hparse hresult
  · rfl
  · exact Error.isRecoverable_of_kind (.inl hdenied.kind)

/-- Compiling blames the formula exactly if it cannot be read, and then nothing about the context
changes. A formula that can be read always compiles on the interpreted backends; on the native one,
if there is code for it, only a refusal of the allocator is in the way. Any other error is the reason
why there is no code. -/
theorem compileScoped_contained (A : Arithmetic) (c : Context) (o : Options) (s : Scope)
    (source : String) (pack : Bool) :
    ((∃ e, (c.compileScoped A o s source pack).result = .error e ∧ e.isRecoverable = true) ↔
      ∃ e, Expr.parse A s source = .error e) ∧
    (∀ e, Expr.parse A s source = .error e →
      (c.compileScoped A o s source pack).result = .error e ∧
      (c.compileScoped A o s source pack).context = c) ∧
    (∀ t, Expr.parse A s source = .ok t →
      (c.backend ≠ .native → ∃ k, (c.compileScoped A o s source pack).result = .ok k) ∧
      ∀ foundry, c.engine = .native foundry →
        ∀ code, foundry.target.generate ((t.fold A o).nativeProgram A o) = .ok code →
        ∀ e, (c.compileScoped A o s source pack).result = .error e → foundry.pool.Denied e) ∧
    ∀ e, (c.compileScoped A o s source pack).result = .error e → e.kind = .internal →
      ∃ foundry t reason, c.engine = .native foundry ∧ Expr.parse A s source = .ok t ∧
        foundry.target.generate ((t.fold A o).nativeProgram A o) = .error reason ∧
        e = .internal (.note reason) := by
  refine ⟨⟨?_, ?_⟩, ?_, ?_, ?_⟩
  · rintro ⟨e, hresult, hrecoverable⟩
    cases hparse : Expr.parse A s source with
    | error e' => exact ⟨e', rfl⟩
    | ok t => simp [isRecoverable_of_compileScoped hparse hresult] at hrecoverable
  · rintro ⟨e, hparse⟩
    exact ⟨e, by rw [compileScoped_error hparse], Expr.isRecoverable_of_parse hparse⟩
  · intro e hparse
    rw [compileScoped_error hparse]
    exact ⟨rfl, rfl⟩
  · intro t hparse
    refine ⟨fun hbackend => ?_, fun foundry hengine code hcode e hresult => ?_⟩
    · cases hresult : (c.compileScoped A o s source pack).result with
      | ok k => exact ⟨k, rfl⟩
      | error e =>
        obtain ⟨foundry, hengine, -⟩ := compileScoped_error_of_parse hparse hresult
        rw [backend, hengine] at hbackend
        exact absurd rfl hbackend
    · obtain ⟨before, hbefore, hcause⟩ := compileScoped_error_of_parse hparse hresult
      obtain rfl := Engine.native.inj (hengine.symm.trans hbefore)
      rcases hcause with ⟨reason, hreason, -⟩ | hdenied
      · simp [hcode] at hreason
      · exact hdenied
  · intro e hresult hkind
    cases hparse : Expr.parse A s source with
    | error e' =>
      rw [compileScoped_error hparse] at hresult
      cases hresult
      have hrecoverable := Expr.isRecoverable_of_parse hparse
      simp [Error.isRecoverable_of_kind (.inr hkind)] at hrecoverable
    | ok t =>
      obtain ⟨foundry, hengine, ⟨reason, hreason, he⟩ | hdenied⟩ :=
        compileScoped_error_of_parse hparse hresult
      · exact ⟨foundry, t, reason, hengine, rfl, hreason, he⟩
      · simp [hdenied.kind] at hkind

theorem compileScoped_contained_denied :
    let pool := Pool.empty ⟨16, fun _ r => r.kind = .allocate, []⟩
    let c : Context := ⟨.native ⟨.streamed .whole 0, pool⟩, .optimized, 0⟩
    let compile (source : String) := c.compileScoped .whole .optimized ⟨["x"], 1⟩ source false
    (compile "x+y").result = .error (.argName "y") ∧ (compile "x+y").context = c ∧
      (compile "x+1").result = .error (.allocation (.refused .allocate)) ∧
      pool.Denied (.allocation (.refused .allocate)) := by
  intro pool c compile
  have hunread : Expr.parse .whole ⟨["x"], 1⟩ "x+y" = .error (.argName "y") := rfl
  have hread : Expr.parse .whole ⟨["x"], 1⟩ "x+1" =
      .ok (.binary .add (.arg 0) (.num ⟨0x3ff0000000000000⟩)) := rfl
  have hresult : (compile "x+1").result = .error (.allocation (.refused .allocate)) := rfl
  obtain ⟨-, hblamed, -, -⟩ := compileScoped_contained .whole c .optimized ⟨["x"], 1⟩ "x+y" false
  obtain ⟨-, -, hplaced, -⟩ := compileScoped_contained .whole c .optimized ⟨["x"], 1⟩ "x+1" false
  obtain ⟨hargName, hcontext⟩ := hblamed _ hunread
  exact ⟨hargName, hcontext, hresult, (hplaced _ hread).2 ⟨.streamed .whole 0, pool⟩ rfl _ rfl _ hresult⟩

end Context

end Reckoner
