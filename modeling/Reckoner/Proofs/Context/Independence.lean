import Reckoner.Proofs.Context.Containment
import Reckoner.Proofs.Context.Ownership

/-! While pages are not refused, what compiling gives does not depend on the pages that are there and
on the calculations that are alive. -/
namespace Reckoner

def Calculation.CallsAlike (call call' : Placement → List Single → Single) (args : List Single)
    (k k' : Calculation) : Prop :=
  ∀ p entry p' entry', k = .native p entry → k' = .native p' entry' →
    call entry args = call' entry' args

/-- Two calculations of the same code, wherever it stands. -/
structure Calculation.Alike (k k' : Calculation) : Prop where
  backend : k.backend = k'.backend
  numArgs : k.numArgs = k'.numArgs
  stream? : k.stream? = k'.stream?
  calculate : ∀ A call call' args, k.CallsAlike call call' args k' →
    k.calculate A call args = k'.calculate A call' args
  calculateUnchecked : ∀ A call call' args, k.CallsAlike call call' args k' →
    k.calculateUnchecked A call args = k'.calculateUnchecked A call' args
  program : ∀ p placement, k = .native p placement → ∃ placement', k' = .native p placement'

theorem Expr.Coded.alike {A : Arithmetic} {o : Options} {e : Expr} {k k' : Calculation}
    (h : e.Coded A o k) (h' : e.Coded A o k') (hbackend : k.backend = k'.backend) : k.Alike k' := by
  cases h with
  | soft =>
    cases h' with
    | soft => exact ⟨rfl, rfl, rfl, fun _ _ _ _ _ => rfl, fun _ _ _ _ _ => rfl, by simp⟩
    | bytecode => contradiction
    | native placement' => contradiction
  | bytecode =>
    cases h' with
    | soft => contradiction
    | bytecode => exact ⟨rfl, rfl, rfl, fun _ _ _ _ _ => rfl, fun _ _ _ _ _ => rfl, by simp⟩
    | native placement' => contradiction
  | native placement =>
    cases h' with
    | soft => contradiction
    | bytecode => contradiction
    | native placement' =>
      refine ⟨rfl, rfl, rfl, fun A call call' args hcalls => ?_, fun A call call' args hcalls => ?_, ?_⟩
      · rw [Calculation.calculate_native, Calculation.calculate_native, hcalls _ _ _ _ rfl rfl]
      · exact hcalls _ _ _ _ rfl rfl
      · rintro p _ ⟨⟩
        exact ⟨placement', rfl⟩

namespace Context

variable {A : Arithmetic} {c d : Context} {o : Options} {s : Scope} {source : String} {pack : Bool}
  {t : Expr} {e : Error}

/-- What a context goes by: all of it but its pages and the number of its calculations. -/
def terms (c : Context) : Options × Backend × Option (Native.Target × (Nat → Request → Bool)) :=
  (c.options, c.backend,
    match c.engine with
    | .native foundry => some (foundry.target, foundry.pool.allocator.refuses)
    | .soft | .bytecode => none)

theorem terms_native {foundry : Foundry} (h : d.terms = c.terms)
    (hengine : c.engine = .native foundry) :
    ∃ foundry', d.engine = .native foundry' ∧ foundry'.target = foundry.target ∧
      foundry'.pool.allocator.refuses = foundry.pool.allocator.refuses := by
  have hrest := congrArg (·.2.2) h
  simp only [terms, hengine] at hrest
  cases hd : d.engine with
  | soft => simp [hd] at hrest
  | bytecode => simp [hd] at hrest
  | native foundry' =>
    simp only [hd, Option.some.injEq, Prod.mk.injEq] at hrest
    exact ⟨foundry', rfl, hrest⟩

theorem target_of_terms {P : Native.Target → Prop}
    (h : ∀ foundry, c.engine = .native foundry → P foundry.target) (hterms : d.terms = c.terms) :
    ∀ foundry, d.engine = .native foundry → P foundry.target := by
  intro foundry hengine
  obtain ⟨foundry', hengine', htarget, -⟩ := terms_native hterms.symm hengine
  rw [← htarget]
  exact h foundry' hengine'

theorem Willing.of_terms (h : c.Willing) (hterms : d.terms = c.terms) : d.Willing := by
  intro foundry hengine n r
  obtain ⟨foundry', hengine', -, hrefuses⟩ := terms_native hterms.symm hengine
  rw [← hrefuses]
  exact h foundry' hengine' n r

theorem terms_withPool {foundry : Foundry} {pool : Pool} (hengine : c.engine = .native foundry)
    (hrefuses : pool.allocator.refuses = foundry.pool.allocator.refuses) (live : Nat) :
    terms ⟨.native { foundry with pool }, c.options, live⟩ = c.terms := by
  simp [terms, backend, hengine, Engine.backend, hrefuses]

theorem Finalizing.terms {outcome : Except Error Calculation × Context}
    (h : c.Finalizing pack outcome) : outcome.2.terms = c.terms := by
  cases h with
  | refused e => rfl
  | unplaced k hbackend hpage => rfl
  | placed foundry hengine p code hcode placement pool hplace =>
    exact terms_withPool hengine hplace.refuses _
  | notPlaced foundry hengine code e pool hplace =>
    exact terms_withPool hengine hplace.refuses _

theorem terms_updatePool {f : Pool → Pool}
    (hf : ∀ p, (f p).allocator.refuses = p.allocator.refuses) : (c.updatePool f).terms = c.terms := by
  unfold updatePool
  split
  next foundry hengine => exact terms_withPool hengine (hf foundry.pool) c.live
  next => rfl
  next => rfl

theorem terms_discard (c : Context) (k : Calculation) : (c.discard k).terms = c.terms := by
  unfold discard
  cases k.page? with
  | none => rfl
  | some page => exact terms_updatePool fun p => (p.release_outcome page).refuses

theorem Generates.of_terms {p : Native.Program} (h : c.Generates p) (hterms : d.terms = c.terms) :
    d.Generates p :=
  target_of_terms (P := fun target => ∃ code, target.generate p = .ok code) h hterms

theorem Installing.not_generated {foundry : Foundry} {p : Native.Program} {reason : String}
    {outcome : Except Error Calculation × Context} (h : c.Installing foundry p pack outcome)
    (hreason : foundry.target.generate p = .error reason) :
    outcome = (.error (.internal (.note reason)), c) := by
  cases h with
  | notGenerated reason' hreason' =>
    obtain rfl := Except.error.inj (hreason.symm.trans hreason')
    rfl
  | notPlaced code hcode e pool hplace => simp [hcode] at hreason
  | placed code hcode placement pool hplace => simp [hcode] at hreason

theorem compileScoped_eq_error_iff (hparse : Expr.parse A s source = .ok t) (hwilling : c.Willing) :
    (c.compileScoped A o s source pack).result = .error e ↔
      ∃ foundry reason, c.engine = .native foundry ∧
        foundry.target.generate ((t.fold A o).nativeProgram A o) = .error reason ∧
        e = .internal (.note reason) := by
  constructor
  · intro hresult
    obtain ⟨foundry, hengine, ⟨reason, hreason, he⟩ | hdenied⟩ :=
      compileScoped_error_of_parse hparse hresult
    · exact ⟨foundry, reason, hengine, hreason, he⟩
    · exact absurd hdenied (hwilling.not_denied hengine)
  · rintro ⟨foundry, reason, hengine, hreason, rfl⟩
    exact congrArg Prod.fst ((compileScoped_native hengine hparse o pack).not_generated hreason)

end Context

def Slot.ofResult : Except Error Calculation → Slot
  | .ok k => .compiled k
  | .error e => .failed e

inductive Slot.Agrees : Slot → Except Error Calculation → Prop
  | compiled {k k' : Calculation} (halike : k.Alike k') : Agrees (.compiled k) (.ok k')
  | failed (e : Error) : Agrees (.failed e) (.error e)

namespace Context

variable {A : Arithmetic} {c d : Context}

theorem compileScoped_error_of_terms {o : Options} {s : Scope} {source : String} {pack : Bool}
    {t : Expr} {e : Error} (hparse : Expr.parse A s source = .ok t) (hterms : d.terms = c.terms)
    (hwilling : c.Willing) (hresult : (d.compileScoped A o s source pack).result = .error e)
    (pack' : Bool) : (c.compileScoped A o s source pack').result = .error e := by
  rw [compileScoped_eq_error_iff hparse (hwilling.of_terms hterms)] at hresult
  rw [compileScoped_eq_error_iff hparse hwilling]
  obtain ⟨foundry, reason, hengine, hreason, he⟩ := hresult
  obtain ⟨foundry', hengine', htarget, -⟩ := terms_native hterms.symm hengine
  exact ⟨foundry', reason, hengine', htarget ▸ hreason, he⟩

theorem compileScoped_agrees (hterms : d.terms = c.terms) (hwilling : c.Willing) (o : Options)
    (s : Scope) (source : String) (pack pack' : Bool) :
    (Slot.ofResult (d.compileScoped A o s source pack).result).Agrees
      (c.compileScoped A o s source pack').result := by
  cases hparse : Expr.parse A s source with
  | error e =>
    rw [compileScoped_error hparse, compileScoped_error hparse]
    exact .failed e
  | ok t =>
    -- Both fail for the same reason or both succeed, and then with code of one formula.
    cases hd : (d.compileScoped A o s source pack).result with
    | error e =>
      rw [compileScoped_error_of_terms hparse hterms hwilling hd pack']
      exact .failed e
    | ok k =>
      cases hc : (c.compileScoped A o s source pack').result with
      | error e =>
        have hwilling' := hwilling.of_terms hterms
        have herror := compileScoped_error_of_terms hparse hterms.symm hwilling' hc pack
        simp [hd] at herror
      | ok k' =>
        obtain ⟨hcoded, hbackend⟩ := coded_of_compileScoped hparse hd
        obtain ⟨hcoded', hbackend'⟩ := coded_of_compileScoped hparse hc
        have hsame : d.backend = c.backend := congrArg (·.2.1) hterms
        exact .compiled (hcoded.alike hcoded' (hbackend.trans (hsame.trans hbackend'.symm)))

end Context

end Reckoner
