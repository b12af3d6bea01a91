import Reckoner.Proofs.Context.Independence

/-! Native code where it stands. A context that keeps its living calculations has their code, unharmed
and executable; so a call of it finds that code in front of whatever else is in the page. What the call
gives is up to the machine, of which two things can be asked: that code stands for itself, and that it
computes its program. -/
namespace Reckoner

namespace Context

variable {A : Arithmetic} {c d : Context} {living : List Calculation} {k k' : Calculation}
  {o : Options} {s : Scope} {source : String}

def SelfContained (c : Context) : Prop :=
  ∀ foundry, c.engine = .native foundry → foundry.target.SelfContained

def Faithful (A : Arithmetic) (c : Context) : Prop :=
  ∀ foundry, c.engine = .native foundry → foundry.target.Faithful A

theorem SelfContained.of_terms (h : c.SelfContained) (hterms : d.terms = c.terms) :
    d.SelfContained :=
  target_of_terms h hterms

theorem Faithful.of_terms (h : c.Faithful A) (hterms : d.terms = c.terms) : d.Faithful A :=
  target_of_terms (P := (·.Faithful A)) h hterms

/-- In a native context the calculation has the code of its program, unharmed in an executable
page. -/
def Installed (c : Context) (k : Calculation) : Prop :=
  ∀ foundry, c.engine = .native foundry → ∃ p placement code page, k = .native p placement ∧
    foundry.target.generate p = .ok code ∧ foundry.pool.pages[placement.page]? = some page ∧
    page.protection = .executable ∧ foundry.pool.peek placement code.length = code

theorem Keeps.installed (h : c.Keeps living) (hidle : c.Idle) (hk : k ∈ living)
    (hcode : ∀ foundry p placement, c.engine = .native foundry → k = .native p placement →
      ∃ code, foundry.target.generate p = .ok code) : c.Installed k := by
  intro foundry hengine
  have hbackend := h.backend_native hengine k hk
  cases k with
  | soft p => contradiction
  | bytecode p => contradiction
  | native p placement =>
    obtain ⟨code, hcode⟩ := hcode foundry p placement hengine rfl
    obtain ⟨pool, page, hpool, hpage, hprotection⟩ := h.executable hidle hk rfl
    obtain rfl := Option.some.inj ((pool?_native hengine).symm.trans hpool)
    have htenant : ⟨placement, code⟩ ∈ tenantsOf foundry.target living := by
      refine List.mem_filterMap.2 ⟨_, hk, ?_⟩
      rw [Calculation.tenant?, Native.Target.codeOf_eq hcode]
    have hpeek := (h.house foundry hengine).undisturbed.code _ htenant
    exact ⟨p, placement, code, page, rfl, hcode, hpage, hprotection, hpeek⟩

theorem Finalizing.generates {pack : Bool} {p : Native.Program} {placement : Placement}
    {after : Context} (h : c.Finalizing pack (.ok (.native p placement), after)) {foundry : Foundry}
    (hengine : c.engine = .native foundry) : ∃ code, foundry.target.generate p = .ok code := by
  cases h with
  | unplaced k hbackend hpage => contradiction
  | placed foundry' hengine' p code hcode placement pool hplace =>
    obtain rfl := Engine.native.inj (hengine.symm.trans hengine')
    exact ⟨code, hcode⟩

theorem generates_of_compileScoped {pack : Bool} {p : Native.Program} {placement : Placement}
    (hterms : d.terms = c.terms)
    (hresult : (c.compileScoped A o s source pack).result = .ok (.native p placement))
    {foundry : Foundry} (hengine : d.engine = .native foundry) :
    ∃ code, foundry.target.generate p = .ok code := by
  obtain ⟨before, hbefore, htarget, -⟩ := terms_native hterms.symm hengine
  have houtcome := c.compileScoped_outcome A o s source pack
  rw [hresult] at houtcome
  rw [← htarget]
  exact houtcome.generates hbefore

theorem compileScoped_installed (hkeeps : c.Keeps living) (hidle : c.Idle)
    (hresult : (c.compileScoped A o s source false).result = .ok k) :
    (c.compileScoped A o s source false).context.Installed k := by
  have houtcome := c.compileScoped_outcome A o s source false
  rw [hresult] at houtcome
  refine (hkeeps.finalized houtcome).installed (hidle.finalized hkeeps houtcome)
    (List.mem_append_right _ (List.mem_singleton.2 rfl)) ?_
  rintro foundry p placement hengine rfl
  exact generates_of_compileScoped houtcome.terms hresult hengine

theorem Installed.call {p : Native.Program} {entry : Placement} {foundry : Foundry}
    (h : c.Installed (.native p entry)) (hengine : c.engine = .native foundry) :
    ∃ code rest, foundry.target.generate p = .ok code ∧
      ∀ args, c.call entry args = foundry.target.execute (code ++ rest) args := by
  obtain ⟨p, entry, code, page, ⟨⟩, hcode, hpage, hprotection, hpeek⟩ := h foundry hengine
  refine ⟨code, (page.memory.drop entry.offset).drop code.length, hcode, fun args => ?_⟩
  have hcodeAt : foundry.pool.codeAt entry =
      code ++ (page.memory.drop entry.offset).drop code.length := by
    have hsplit := List.take_append_drop code.length (page.memory.drop entry.offset)
    simp only [Pool.peek, hpage] at hpeek
    rw [hpeek] at hsplit
    simp only [Pool.codeAt, hpage, hprotection, if_true]
    exact hsplit.symm
  rw [Context.call, hengine, Engine.call, hcodeAt]

theorem exists_foundry {p : Native.Program} {entry : Placement}
    (h : (Calculation.native p entry).backend = c.backend) :
    ∃ foundry, c.engine = .native foundry := by
  unfold backend at h
  cases hc : c.engine with
  | native foundry => exact ⟨foundry, rfl⟩
  | soft => simp [hc, Engine.backend, Calculation.backend] at h
  | bytecode => simp [hc, Engine.backend, Calculation.backend] at h

theorem Installed.executes (h : c.Installed k) (hbackend : k.backend = c.backend)
    (hfaithful : c.Faithful A) {args : List Single}
    (hreach : ∀ p entry, k = .native p entry → p.result.reach ≤ args.length) :
    k.Executes A c.call args := by
  rintro p entry rfl
  obtain ⟨foundry, hengine⟩ := exists_foundry hbackend
  obtain ⟨code, rest, hcode, hcall⟩ := h.call hengine
  rw [hcall]
  exact hfaithful foundry hengine p code hcode rest args (hreach p entry rfl)

/-- Code that stands for itself is called alike in two contexts that go by the same terms. -/
theorem Installed.callsAlike (h : d.Installed k) (h' : c.Installed k') (halike : k.Alike k')
    (hterms : d.terms = c.terms) (hbackend : k.backend = d.backend) (hself : c.SelfContained)
    (args : List Single) : k.CallsAlike d.call c.call args k' := by
  rintro p entry p' entry' rfl rfl
  obtain ⟨_, ⟨⟩⟩ := halike.program p entry rfl
  obtain ⟨foundry', hengine'⟩ := exists_foundry hbackend
  obtain ⟨foundry, hengine, htarget, -⟩ := terms_native hterms.symm hengine'
  obtain ⟨code', rest', hcode', hcall'⟩ := h.call hengine'
  obtain ⟨code, rest, hcode, hcall⟩ := h'.call hengine
  rw [← htarget] at hcode' hcall'
  obtain rfl := Except.ok.inj (hcode.symm.trans hcode')
  have halone := hself foundry hengine p code hcode
  rw [hcall', hcall, halone, halone]

end Context

end Reckoner
