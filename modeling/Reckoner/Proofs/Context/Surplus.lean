import Reckoner.Proofs.Context.Backends
import Reckoner.Proofs.Context.Reloading

/-! A calculation depends on the arguments that it asks for and on nothing behind them. Code of any
origin keeps the stack discipline, so that a run on just the arguments asked for comes to its end,
and a run that comes to its end takes no notice of further arguments. -/
namespace Reckoner

section Interpreters

variable {A : Arithmetic} {args stack after : List Single}

theorem Instr.exec_append_args {i : Instr} (h : i.exec A args stack = .ok after)
    (surplus : List Single) : i.exec A (args ++ surplus) stack = .ok after := by
  cases i with
  | arg index =>
    rw [exec] at h ⊢
    cases hget : args[index.toNat]? with
    | none => simp [hget] at h
    | some x =>
      have hlt : index.toNat < args.length := (List.getElem?_eq_some_iff.1 hget).1
      rw [List.getElem?_append_left hlt, hget]
      simpa [hget] using h
  | imm value => exact h
  | unary u => cases u <;> cases stack <;> exact h
  | binary op => rcases stack with _ | ⟨y, _ | ⟨x, below⟩⟩ <;> exact h

theorem Soft.exec_append_args {code : List Instr} (h : exec A args code stack = .ok after)
    (surplus : List Single) : exec A (args ++ surplus) code stack = .ok after := by
  induction code generalizing stack with
  | nil => exact h
  | cons i rest ih =>
    rw [exec] at h ⊢
    cases hexec : i.exec A args stack with
    | error fault => simp [hexec] at h
    | ok between =>
      rw [Instr.exec_append_args hexec]
      apply ih
      simpa [hexec] using h

theorem Stream.run_of_exec {s : Stream} {x : Single} (hfault : s.decode.fault = none)
    (h : Soft.exec A args (s.decode.instrs.map Prod.snd) [] = .ok [x]) : s.run A args = .ok x := by
  rw [run, Stream.runFrom_of_exec A args h, hfault]

end Interpreters

/-! Code that a builder has finished and streams that were checked, as one. -/

theorem Gauge.walk_of_run {g : Gauge} {instrs : List (Nat × Instr)} {w : Shape.Walk}
    (h : g.walk.run instrs = .ok w) (hg : g.shortage = none) :
    (g.applyAll (instrs.map Prod.snd)).shortage = none ∧
      (g.applyAll (instrs.map Prod.snd)).walk = w := by
  induction instrs generalizing g with
  | nil =>
    cases h
    exact ⟨hg, rfl⟩
  | cons entry rest ih =>
    rw [Shape.Walk.run, Gauge.step_walk] at h
    cases hadmits : g.admits entry.2 with
    | false => simp [hadmits] at h
    | true =>
      apply ih
      · simpa [hadmits] using h
      · exact Gauge.shortage_apply_eq_none_iff.2 ⟨hg, hadmits⟩

theorem Stream.gauge_of_check {s : Stream} {shape : Shape} (h : s.check = .ok shape) :
    s.decode.fault = none ∧
      (Gauge.start.applyAll (s.decode.instrs.map Prod.snd)).fault? = none ∧
      (Gauge.start.applyAll (s.decode.instrs.map Prod.snd)).shape = shape := by
  rw [check] at h
  split at h
  next => contradiction
  next w hw =>
    obtain ⟨hshortage, hwalk⟩ := Gauge.walk_of_run (g := .start) hw rfl
    split at h
    next => contradiction
    next hfault =>
      split at h
      next hdepth =>
        cases h
        subst hwalk
        exact ⟨hfault, Gauge.fault?_eq_none_iff.2 ⟨hshortage, hdepth⟩, rfl⟩
      next => contradiction

namespace Calculation

/-- The ways to a calculation: compiling, handing calls to a builder, and loading a stream. -/
inductive Obtained (A : Arithmetic) (k : Calculation) : Prop
  | compiled (c : Context) (o : Options) (s : Scope) (source : String) (pack : Bool)
    (h : (c.compileScoped A o s source pack).result = .ok k)
  | finalized (c : Context) (backend : Backend) (calls : List Call) (pack : Bool)
    (h : (c.finalize ((Builder.empty backend).callAll calls) pack).1 = .ok k)
  | loaded (s : Stream) (h : ofStream s = .ok k)

def Yields (A : Arithmetic) (args : List Single) : Calculation → Single → Prop
  | soft p, x => Soft.exec A args p.code [] = .ok [x]
  | bytecode p, x => p.run A args = .ok x
  | native _ _, _ => False

/-- Interpreted code that keeps the stack discipline and asks for the arguments that it reads. -/
inductive Sound : Calculation → Prop
  | soft (p : Soft.Program) (hfault : (Gauge.start.applyAll p.code).fault? = none)
    (hrequired : (Gauge.start.applyAll p.code).required = p.required) : Sound (.soft p)
  | bytecode (p : Bytecode.Program) (hcheck : p.stream.check = .ok p.shape) : Sound (.bytecode p)

theorem sound_of_finish_soft {calls : List Call} {p : Soft.Program}
    (h : (calls.foldl Soft.Builder.call .empty).finish = .ok p) : Sound (.soft p) := by
  rw [Soft.Builder.finish_foldl_call] at h
  cases hfault : (Gauge.ofCalls calls).fault? with
  | some e => simp [hfault] at h
  | none =>
    simp only [hfault, Except.ok.injEq] at h
    subst h
    exact .soft _ hfault rfl

theorem sound_of_finish_bytecode {calls : List Call} {p : Bytecode.Program}
    (h : (calls.foldl Bytecode.Builder.call .empty).finish = .ok p) : Sound (.bytecode p) := by
  rw [Bytecode.Builder.finish_foldl_call] at h
  cases hfault : (Gauge.ofCalls calls).fault? with
  | some e => simp [hfault] at h
  | none =>
    simp only [hfault, Except.ok.injEq] at h
    subst h
    exact .bytecode _ (Stream.check_ofInstrs hfault)

variable {A : Arithmetic} {k : Calculation}

theorem finish_of_finalize {c : Context} {b : Builder} {pack : Bool}
    (h : (c.finalize b pack).1 = .ok k) (hkind : k.backend ≠ .native) :
    (∃ sb p, b = .soft sb ∧ sb.finish = .ok p ∧ k = .soft p) ∨
      ∃ sb p, b = .bytecode sb ∧ sb.finish = .ok p ∧ k = .bytecode p := by
  unfold Context.finalize at h
  split at h
  next sb _ =>
    cases hfinish : sb.finish with
    | error e => simp [hfinish] at h
    | ok p =>
      simp only [hfinish, Except.ok.injEq] at h
      exact .inl ⟨sb, p, rfl, hfinish, h.symm⟩
  next sb _ =>
    cases hfinish : sb.finish with
    | error e => simp [hfinish] at h
    | ok p =>
      simp only [hfinish, Except.ok.injEq] at h
      exact .inr ⟨sb, p, rfl, hfinish, h.symm⟩
  next foundry sb _ =>
    -- A placed calculation is native.
    split at h
    next => contradiction
    next =>
      split at h
      next => contradiction
      next =>
        split at h
        next =>
          cases h
          exact absurd rfl hkind
        next => contradiction
  next => contradiction

theorem sound_of_finalize {c : Context} {backend : Backend} {calls : List Call} {pack : Bool}
    (h : (c.finalize ((Builder.empty backend).callAll calls) pack).1 = .ok k)
    (hkind : k.backend ≠ .native) : Sound k := by
  have hfinish := finish_of_finalize h hkind
  cases backend with
  | soft =>
    rw [Builder.empty, Builder.callAll_soft] at hfinish
    obtain ⟨sb, p, ⟨⟩, hsb, rfl⟩ | ⟨sb, p, ⟨⟩, -⟩ := hfinish
    exact sound_of_finish_soft hsb
  | bytecode =>
    rw [Builder.empty, Builder.callAll_bytecode] at hfinish
    obtain ⟨sb, p, ⟨⟩, -⟩ | ⟨sb, p, ⟨⟩, hsb, rfl⟩ := hfinish
    exact sound_of_finish_bytecode hsb
  | native =>
    rw [Builder.empty, Builder.callAll_native] at hfinish
    obtain ⟨sb, p, ⟨⟩, -⟩ | ⟨sb, p, ⟨⟩, -⟩ := hfinish

theorem Obtained.sound (h : k.Obtained A) (hkind : k.backend ≠ .native) : Sound k := by
  cases h with
  | compiled c o s source pack h =>
    cases hparse : Expr.parse A s source with
    | error e => simp [Context.compileScoped, hparse] at h
    | ok e =>
      rw [Context.compileScoped, hparse] at h
      exact sound_of_finalize h hkind
  | finalized c backend calls pack h => exact sound_of_finalize h hkind
  | loaded s h =>
    rw [ofStream, Bytecode.Program.ofStream] at h
    cases hcheck : s.check with
    | error e => simp [hcheck] at h
    | ok shape =>
      simp only [hcheck, Except.ok.injEq] at h
      exact h ▸ .bytecode ⟨s, shape⟩ hcheck

theorem Sound.yields (h : Sound k) {args : List Single} (hargs : k.numArgs ≤ args.length) :
    ∃ x, ∀ surplus, k.Yields A (args ++ surplus) x := by
  have hexec {code : List Instr} (hfault : (Gauge.start.applyAll code).fault? = none)
      (hrequired : (Gauge.start.applyAll code).required ≤ args.length) :
      ∃ x, ∀ surplus, Soft.exec A (args ++ surplus) code [] = .ok [x] := by
    obtain ⟨hshortage, hdepth⟩ := Gauge.fault?_eq_none_iff.1 hfault
    have hstart : ([] : List Single).length = Gauge.start.depth := rfl
    obtain ⟨after, hafter, hlength⟩ :=
      Soft.exec_of_shortage_eq_none A hstart hshortage hrequired
    obtain ⟨x, rfl⟩ := List.length_eq_one_iff.1 (hlength.trans hdepth)
    exact ⟨x, Soft.exec_append_args hafter⟩
  cases h with
  | soft p hfault hrequired => exact hexec hfault (hrequired ▸ hargs)
  | bytecode p hcheck =>
    obtain ⟨hdecoded, hfault, hshape⟩ := Stream.gauge_of_check hcheck
    have hrequired := congrArg Shape.required hshape
    obtain ⟨x, hx⟩ := hexec hfault (Nat.le_trans (Nat.le_of_eq hrequired) hargs)
    exact ⟨x, fun surplus => Stream.run_of_exec hdecoded (hx surplus)⟩

variable {call : Placement → List Single → Single}

theorem calculate_of_yields {args : List Single} {x : Single} (h : k.Yields A args x)
    (hargs : k.numArgs ≤ args.length) : k.calculate A call args = .ok x := by
  cases k with
  | soft p => exact calculate_soft hargs h
  | bytecode p => exact calculate_bytecode hargs h
  | native p placement => exact h.elim

theorem calculateUnchecked_of_yields {args : List Single} {x : Single}
    (h : k.Yields A (args.take k.numArgs) x) : k.calculateUnchecked A call args = x := by
  cases k with
  | soft p => exact Soft.Program.run_of_exec h
  | bytecode p =>
    rw [Yields, numArgs] at h
    simp only [calculateUnchecked, h]
  | native p placement => exact h.elim

theorem calculate_of_lt {args : List Single} (h : args.length < k.numArgs) :
    k.calculate A call args = .error (.tooFewValues k.numArgs args.length) := by
  cases k <;> rw [calculate, if_pos h]

/-- Interpreted calculations of whatever origin: two lists of arguments that agree as far as the
calculation reads give one value, with the check of their length and without it, and no run behind
either ends otherwise than with that value. The only error is that there are too few arguments. -/
theorem calculate_surplus_irrelevant (A : Arithmetic) (k : Calculation) (hk : k.Obtained A)
    (hkind : k.backend ≠ .native) :
    (∀ args args' : List Single, k.numArgs ≤ args.length → k.numArgs ≤ args'.length →
      args.take k.numArgs = args'.take k.numArgs →
      ∃ x, (k.Yields A args x ∧ k.Yields A args' x ∧ k.Yields A (args.take k.numArgs) x) ∧
        ∀ call, k.calculate A call args = .ok x ∧ k.calculate A call args' = .ok x ∧
          k.calculateUnchecked A call args = x ∧ k.calculateUnchecked A call args' = x) ∧
    ∀ call (args : List Single) (e : Error), k.calculate A call args = .error e ↔
      args.length < k.numArgs ∧ e = .tooFewValues k.numArgs args.length := by
  have hsound := hk.sound hkind
  have hyields (args : List Single) (hargs : k.numArgs ≤ args.length) :
      ∃ x, ∀ surplus, k.Yields A (args.take k.numArgs ++ surplus) x := by
    apply hsound.yields
    simp [hargs]
  constructor
  · intro args args' hargs hargs' hagree
    obtain ⟨x, hx⟩ := hyields args hargs
    have htake : k.Yields A (args.take k.numArgs) x := by simpa using hx []
    have hfirst : k.Yields A args x := by simpa using hx (args.drop k.numArgs)
    have hsecond : k.Yields A args' x := by
      have := hx (args'.drop k.numArgs)
      rwa [hagree, List.take_append_drop] at this
    exact ⟨x, ⟨hfirst, hsecond, htake⟩, fun call => ⟨calculate_of_yields hfirst hargs,
      calculate_of_yields hsecond hargs', calculateUnchecked_of_yields htake,
      calculateUnchecked_of_yields (hagree ▸ htake)⟩⟩
  · intro call args e
    by_cases hargs : args.length < k.numArgs
    · simp only [calculate_of_lt hargs, Except.error.injEq, hargs, true_and]
      exact eq_comm
    · obtain ⟨x, hx⟩ := hyields args (Nat.not_lt.1 hargs)
      have hfirst : k.Yields A args x := by simpa using hx (args.drop k.numArgs)
      simp [calculate_of_yields hfirst (Nat.not_lt.1 hargs), hargs]

/-- A loaded stream that subtracts its first argument from its second, and a root of the second
argument that a builder has made, on lists that differ from the third argument on. -/
theorem calculate_surplus_irrelevant_third :
    let args : List Single := [⟨0x40800000⟩, ⟨0x41200000⟩, ⟨0x3f800000⟩]
    let args' : List Single := [⟨0x40800000⟩, ⟨0x41200000⟩]
    let c : Context := ⟨.soft, .unoptimized, 0⟩
    (∃ k, ofStream .difference = .ok k ∧ k.numArgs = 2 ∧
      ∀ call, k.calculate .whole call args = .ok ⟨0x40c00000⟩ ∧
        k.calculate .whole call args' = .ok ⟨0x40c00000⟩ ∧
        k.calculateUnchecked .whole call args = ⟨0x40c00000⟩) ∧
    ∃ k, (c.finalize ((Builder.empty .soft).callAll [.callArg .sqrt 1]) false).1 = .ok k ∧
      ∃ x, ∀ call, k.calculate .whole call args = .ok x ∧
        k.calculateUnchecked .whole call args' = x ∧
        ∀ e, k.calculate .whole call [⟨0x40800000⟩] = .error e ↔ e = .tooFewValues 2 1 := by
  intro args args' c
  constructor
  · refine ⟨_, rfl, rfl, fun call => ?_⟩
    obtain ⟨hvalue, -⟩ := calculate_surplus_irrelevant .whole _ (.loaded .difference rfl) (by decide)
    obtain ⟨x, -, hx⟩ := hvalue args args' (by decide) (by decide) rfl
    obtain ⟨hx, hx', hunchecked, -⟩ := hx call
    have hsix : x = ⟨0x40c00000⟩ := Except.ok.inj (hx.symm.trans rfl)
    exact ⟨hsix ▸ hx, hsix ▸ hx', hsix ▸ hunchecked⟩
  · refine ⟨_, rfl, ?_⟩
    obtain ⟨hvalue, herror⟩ := calculate_surplus_irrelevant .whole _
      (.finalized c .soft [.callArg .sqrt 1] false rfl) (by decide)
    obtain ⟨x, -, hx⟩ := hvalue args args' (by decide) (by decide) rfl
    refine ⟨x, fun call => ⟨(hx call).1, (hx call).2.2.2, fun e => (herror call _ e).trans ?_⟩⟩
    exact and_iff_right (by decide)

end Calculation

end Reckoner
