import Reckoner.Soft.Program

/-! What a gauge says about code is what happens when the code runs: code without a shortage never
lacks an operand, whatever the stack below holds, and leaves as many values as the gauge counts. -/
namespace Reckoner

namespace Gauge

def applyAll (g : Gauge) (instrs : List Instr) : Gauge := instrs.foldl apply g

@[simp] theorem applyAll_nil (g : Gauge) : g.applyAll [] = g := rfl

@[simp] theorem applyAll_cons (g : Gauge) (i : Instr) (rest : List Instr) :
    g.applyAll (i :: rest) = (g.apply i).applyAll rest := rfl

@[simp] theorem applyAll_append (g : Gauge) (first second : List Instr) :
    g.applyAll (first ++ second) = (g.applyAll first).applyAll second :=
  List.foldl_append

theorem apply_of_admits {g : Gauge} {i : Instr} (h : g.admits i = true) :
    g.apply i =
      ⟨g.depth - i.inputs + i.outputs, max g.peak (g.depth - i.inputs + i.outputs),
        max g.required i.reach, g.shortage⟩ := by
  rw [apply, if_pos h]

theorem apply_of_not_admits {g : Gauge} {i : Instr} (h : g.admits i = false) :
    g.apply i = { g with shortage := g.shortage <|> some (i, g.depth) } := by
  rw [apply, if_neg (by simp [h])]

theorem shortage_apply_eq_none_iff {g : Gauge} {i : Instr} :
    (g.apply i).shortage = none ↔ g.shortage = none ∧ g.admits i = true := by
  cases h : g.admits i with
  | true => simp [apply_of_admits h]
  | false => cases hs : g.shortage <;> simp [apply_of_not_admits h, hs]

theorem shortage_eq_none_of_applyAll {g : Gauge} {instrs : List Instr}
    (h : (g.applyAll instrs).shortage = none) : g.shortage = none := by
  induction instrs generalizing g with
  | nil => exact h
  | cons i rest ih => exact (shortage_apply_eq_none_iff.1 (ih h)).1

theorem required_le_apply (g : Gauge) (i : Instr) : g.required ≤ (g.apply i).required := by
  cases h : g.admits i with
  | true =>
    rw [apply_of_admits h]
    exact Nat.le_max_left _ _
  | false =>
    have hsame := congrArg Gauge.required (apply_of_not_admits h)
    exact Nat.le_of_eq hsame.symm

theorem required_le_applyAll (g : Gauge) (instrs : List Instr) :
    g.required ≤ (g.applyAll instrs).required := by
  induction instrs generalizing g with
  | nil => exact Nat.le_refl _
  | cons i rest ih => exact Nat.le_trans (g.required_le_apply i) (ih (g.apply i))

end Gauge

theorem Instr.exec_of_admits (A : Arithmetic) {args stack : List Single} {g : Gauge} {i : Instr}
    (hstack : stack.length = g.depth) (hadmits : g.admits i = true) (hreach : i.reach ≤ args.length) :
    ∃ after, i.exec A args stack = .ok after ∧ after.length = (g.apply i).depth := by
  rw [Gauge.apply_of_admits hadmits]
  simp only [Gauge.admits, decide_eq_true_eq, ← hstack] at hadmits ⊢
  cases i with
  | arg index =>
    simp only [reach] at hreach
    refine ⟨args.get ⟨index.toNat, by omega⟩ :: stack, ?_, by simp [inputs, outputs]⟩
    have hget : args[index.toNat]? = some (args.get ⟨index.toNat, by omega⟩) :=
      List.getElem?_eq_getElem _
    rw [exec, hget]
  | imm value => exact ⟨value :: stack, rfl, by simp [inputs, outputs]⟩
  | unary u =>
    match stack, hadmits with
    | x :: below, _ =>
      rcases u with f | _
      · exact ⟨A.intrinsicSingle f x :: below, rfl, by simp [inputs, outputs]⟩
      · exact ⟨below, rfl, by simp [inputs, outputs]⟩
  | binary op =>
    match stack, hadmits with
    | y :: x :: below, _ =>
      exact ⟨A.binarySingle op x y :: below, rfl, by simp [inputs, outputs]⟩

namespace Soft

/-- Runs instructions on a stack as long as each of them finds its operands. -/
def exec (A : Arithmetic) (args : List Single) :
    List Instr → List Single → Except Instr.Fault (List Single)
  | [], stack => .ok stack
  | i :: rest, stack =>
    match i.exec A args stack with
    | .ok stack => exec A args rest stack
    | .error fault => .error fault

theorem step_of_exec {A : Arithmetic} {args stack after : List Single} {i : Instr}
    (h : i.exec A args stack = .ok after) : step A args stack i = after := by
  cases i with
  | arg index =>
    rw [Instr.exec] at h
    cases hget : args[index.toNat]? with
    | none => simp [hget] at h
    | some x => simpa [step, hget] using h
  | imm value => exact Except.ok.inj h
  | unary u => cases u <;> cases stack <;> simp_all [Instr.exec, step]
  | binary op => rcases stack with _ | ⟨y, _ | ⟨x, below⟩⟩ <;> simp_all [Instr.exec, step]

theorem foldl_step_of_exec {A : Arithmetic} {args stack after : List Single} {code : List Instr}
    (h : exec A args code stack = .ok after) : code.foldl (step A args) stack = after := by
  induction code generalizing stack with
  | nil => exact Except.ok.inj h
  | cons i rest ih =>
    rw [exec] at h
    cases hexec : i.exec A args stack with
    | error fault => simp [hexec] at h
    | ok between =>
      rw [List.foldl_cons, step_of_exec hexec]
      exact ih (by simpa [hexec] using h)

theorem Program.run_of_exec {A : Arithmetic} {args : List Single} {p : Program} {x : Single}
    (h : exec A args p.code [] = .ok [x]) : p.run A args = x := by
  rw [run, foldl_step_of_exec h]
  rfl

theorem exec_append (A : Arithmetic) (args : List Single) (first second : List Instr)
    (stack : List Single) :
    exec A args (first ++ second) stack =
      match exec A args first stack with
      | .ok between => exec A args second between
      | .error fault => .error fault := by
  induction first generalizing stack with
  | nil => rfl
  | cons i rest ih =>
    rw [List.cons_append, exec, exec]
    cases i.exec A args stack with
    | ok after => exact ih after
    | error fault => rfl

/-- Code without a shortage runs to its end on every stack of the height that the gauge started
from, as soon as there are as many arguments as the gauge requires. -/
theorem exec_of_shortage_eq_none (A : Arithmetic) {args : List Single} {instrs : List Instr}
    {g : Gauge} {stack : List Single} (hstack : stack.length = g.depth)
    (hshortage : (g.applyAll instrs).shortage = none)
    (hargs : (g.applyAll instrs).required ≤ args.length) :
    ∃ after, exec A args instrs stack = .ok after ∧
      after.length = (g.applyAll instrs).depth := by
  induction instrs generalizing g stack with
  | nil => exact ⟨stack, rfl, hstack⟩
  | cons i rest ih =>
    have hadmits : g.admits i = true :=
      (Gauge.shortage_apply_eq_none_iff.1 (Gauge.shortage_eq_none_of_applyAll hshortage)).2
    have hreach : i.reach ≤ args.length := by
      have hi : i.reach ≤ (g.apply i).required := by
        rw [Gauge.apply_of_admits hadmits]
        exact Nat.le_max_right _ _
      have hrest := (g.apply i).required_le_applyAll rest
      rw [Gauge.applyAll_cons] at hargs
      omega
    obtain ⟨between, hexec, hbetween⟩ := Instr.exec_of_admits A hstack hadmits hreach
    obtain ⟨after, hrest, hafter⟩ := ih hbetween hshortage hargs
    refine ⟨after, ?_, hafter⟩
    rw [exec, hexec]
    exact hrest

end Soft

end Reckoner
