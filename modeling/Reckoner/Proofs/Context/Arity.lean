import Reckoner.Proofs.Context.MixedPrecision
import Reckoner.Proofs.Expr.Recognition

/-! How many arguments a calculation asks for. The grammar admits only arguments that the scope
declares, and neither folding nor the order in which code takes its operands adds or drops any, so
that every backend asks for those up to the last one that the formula names. -/
namespace Reckoner

theorem Derives.lt_count {A : Arithmetic} {s : Scope} {p : Phrase} {ts : List Token} {e : Expr}
    (h : Derives A s p ts e) : ∀ i ∈ e.args, i.toNat < s.count := by
  induction h with
  | number l => simp [Expr.args]
  | plus l => simp [Expr.args]
  | minus l => simp [Expr.args]
  | index n hn hi =>
    -- The position survives in sixteen bits.
    have hbits : n.toUInt16.toNat = n.toNat := by
      rw [UInt64.toNat_toUInt16]
      exact Nat.mod_eq_of_lt (Nat.lt_succ_of_le hi)
    simpa [Expr.args, hbits] using hn
  | name name call i hf hn hi =>
    have hbits : i.toUInt16.toNat = i := by
      rw [Nat.toUInt16_eq, UInt16.toNat_ofNat']
      exact Nat.mod_eq_of_lt (Nat.lt_succ_of_le hi)
    simpa [Expr.args, hbits] using hn.1
  | call f ts e he ih => exact ih
  | group ts e he ih => exact ih
  | factor ts e he ih => exact ih
  | product ls rs l r op hop hl hr ihl ihr =>
    simp only [Expr.args, List.mem_append]
    exact fun i hi => hi.elim (ihl i) (ihr i)
  | term ts e he ih => exact ih
  | sum ls rs l r op hop hl hr ihl ihr =>
    simp only [Expr.args, List.mem_append]
    exact fun i hi => hi.elim (ihl i) (ihr i)

namespace Expr

variable {A : Arithmetic} {s : Scope} {source : String} {e : Expr}

theorem run_of_parse (h : parse A s source = .ok e) :
    ∃ r, Reading.start.run A s (Scan.ofString source).tokens = .ok r ∧
      r.finish (Scan.ofString source).stop = .ok e := by
  unfold parse at h
  dsimp only at h
  split at h
  next => contradiction
  next r hrun =>
    split at h
    next => contradiction
    next => exact ⟨r, hrun, h⟩

theorem reach_le_count (h : parse A s source = .ok e) : e.reach ≤ s.count := by
  obtain ⟨r, hrun, hfinish⟩ := run_of_parse h
  have hderives := (Reading.Spells.start.run hrun).finish hfinish
  exact reach_le_iff.2 hderives.lt_count

theorem reach_eq_zero_or (e : Expr) : e.reach = 0 ∨ ∃ i ∈ e.args, e.reach = i.toNat + 1 := by
  induction e with
  | num v => exact .inl rfl
  | arg i => exact .inr ⟨i, by simp [args], rfl⟩
  | binary op l r ihl ihr =>
    simp only [args, reach, List.mem_append]
    rcases Nat.le_total l.reach r.reach with hle | hle
    · rw [Nat.max_eq_right hle]
      rcases ihr with hzero | ⟨i, hi, hreach⟩
      · exact .inl hzero
      · exact .inr ⟨i, .inr hi, hreach⟩
    · rw [Nat.max_eq_left hle]
      rcases ihl with hzero | ⟨i, hi, hreach⟩
      · exact .inl hzero
      · exact .inr ⟨i, .inl hi, hreach⟩
  | call f e ih => exact ih

theorem reach_of_args_eq_nil (h : e.args = []) : e.reach = 0 := by
  have hle : e.reach ≤ 0 := reach_le_iff.2 (by simp [h])
  omega

theorem reach_of_args_ne_nil (h : e.args ≠ []) :
    ∃ i ∈ e.args, (∀ j ∈ e.args, j ≤ i) ∧ e.reach = i.toNat + 1 := by
  rcases e.reach_eq_zero_or with hzero | ⟨i, hi, hreach⟩
  · obtain ⟨i, hi⟩ := List.exists_mem_of_ne_nil _ h
    have hlt := lt_reach_of_mem_args hi
    omega
  · refine ⟨i, hi, fun j hj => ?_, hreach⟩
    have hlt := lt_reach_of_mem_args hj
    rw [UInt16.le_iff_toNat_le]
    omega

end Expr

namespace Context

variable {A : Arithmetic} {c : Context} {o : Options} {s : Scope} {source : String} {pack : Bool}
  {k : Calculation}

theorem numArgs_of_compileScoped {e : Expr} (hparse : Expr.parse A s source = .ok e)
    (hresult : (c.compileScoped A o s source pack).result = .ok k) : k.numArgs = e.reach := by
  rw [(coded_of_compileScoped hparse hresult).1.numArgs, Expr.reach_fold]

/-- Whatever compiles asks for no argument if the formula names none, and otherwise for those up to the
last one that it names. This depends on neither the context and its backend nor the options, and the
declared arguments are always enough: on them the calculation computes a value. -/
theorem compileScoped_arity (A : Arithmetic) (c : Context) (o : Options) (s : Scope)
    (source : String) (pack : Bool) (k : Calculation)
    (hresult : (c.compileScoped A o s source pack).result = .ok k) :
    ∃ e, Expr.parse A s source = .ok e ∧
      (e.args = [] → k.numArgs = 0) ∧
      (e.args ≠ [] → ∃ i ∈ e.args, (∀ j ∈ e.args, j ≤ i) ∧ k.numArgs = i.toNat + 1) ∧
      (∀ (c' : Context) (o' : Options) (pack' : Bool) (k' : Calculation),
        (c'.compileScoped A o' s source pack').result = .ok k' → k'.numArgs = k.numArgs) ∧
      k.numArgs ≤ s.count ∧
      ∀ call (args : List Single), s.count ≤ args.length → ∃ x, k.calculate A call args = .ok x := by
  cases hparse : Expr.parse A s source with
  | error e =>
    rw [compileScoped_error hparse] at hresult
    contradiction
  | ok e =>
    have hnum := numArgs_of_compileScoped hparse hresult
    have hcount := Expr.reach_le_count hparse
    refine ⟨e, rfl, ?_, ?_, ?_, ?_, ?_⟩
    · rw [hnum]
      exact Expr.reach_of_args_eq_nil
    · rw [hnum]
      exact Expr.reach_of_args_ne_nil
    · intro c' o' pack' k' hresult'
      rw [numArgs_of_compileScoped hparse hresult', hnum]
    · omega
    · intro call args hargs
      obtain ⟨hcoded, -⟩ := coded_of_compileScoped hparse hresult
      exact hcoded.exists_calculate (by omega) call

/-- Of four declared arguments the text `b*$0+(2-2)` names the second, under a name that the third
has too, and the first. -/
theorem compileScoped_arity_two :
    let c : Context :=
      .ofBackend ⟨.streamed .whole 0, ⟨64, by decide⟩, fun _ _ => false⟩ .native .unoptimized
    let soft : Context := ⟨.soft, .optimized, 0⟩
    let s : Scope := ⟨["a", "b", "b"], 4⟩
    ∃ k, (c.compileScoped .whole .optimized s "b*$0+(2-2)" false).result = .ok k ∧
      k.numArgs = 2 ∧
      (∀ k', (soft.compileScoped .whole .unoptimized s "b*$0+(2-2)" false).result = .ok k' →
        k'.numArgs = 2) ∧
      ∃ x, k.calculate .whole (c.compileScoped .whole .optimized s "b*$0+(2-2)" false).context.call
        [⟨0x40400000⟩, ⟨0x40000000⟩, ⟨0⟩, ⟨0⟩] = .ok x := by
  intro c soft s
  have hresult : ∃ k, (c.compileScoped .whole .optimized s "b*$0+(2-2)" false).result = .ok k ∧
      k.numArgs = 2 := ⟨_, rfl, rfl⟩
  obtain ⟨k, hk, hnum⟩ := hresult
  obtain ⟨e, -, -, -, hsame, -, hvalue⟩ :=
    compileScoped_arity .whole c .optimized s "b*$0+(2-2)" false k hk
  rw [hnum] at hsame
  exact ⟨k, hk, hnum, hsame soft _ false, hvalue _ _ (by decide)⟩

end Context

end Reckoner
