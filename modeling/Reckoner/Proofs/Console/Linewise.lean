import Reckoner.Proofs.Console.Input
import Reckoner.Proofs.Context.Arity
import Reckoner.Proofs.Context.Execution
import Reckoner.Proofs.Native.Streamed

/-! Lines do not know of each other. All of them are compiled in one context, but what is left of a
line in it, pages and the number of calculations, is nothing that compiling goes by; and native code
that stands for itself gives the same on whichever page it lands. So each line is answered as if it
were the only one. -/
namespace Reckoner

/-- What lines rely on if they are compiled to native code: memory is never refused, code stands for
itself, and a reason why there is no code fits in a line. -/
structure Platform.Reliable (P : Platform) : Prop where
  willing : ∀ n r, P.refuses n r = false
  selfContained : P.target.SelfContained
  legible : ∀ p reason, P.target.generate p = .error reason → Text.Unbroken reason

namespace Console

open Text (Unbroken)

attribute [ext] Output

namespace Output

@[simp] theorem out_append (a b : Output) : (a ++ b).out = a.out ++ b.out := rfl

@[simp] theorem err_append (a b : Output) : (a ++ b).err = a.err ++ b.err := rfl

theorem append_assoc (a b c : Output) : a ++ b ++ c = a ++ (b ++ c) := by
  apply Output.ext <;> simp [String.append_assoc]

theorem empty_append (a : Output) : empty ++ a = a := by
  apply Output.ext <;> simp [empty]

def join : List Output → Output := List.foldr (· ++ ·) empty

theorem join_append (as bs : List Output) : join (as ++ bs) = join as ++ join bs := by
  induction as with
  | nil => exact (empty_append _).symm
  | cons a as ih =>
    have hcons : join (a :: as ++ bs) = a ++ join (as ++ bs) := rfl
    rw [hcons, ih, ← append_assoc]
    rfl

end Output

namespace Calculator

variable {A : Arithmetic} {c d : Calculator} {line : String} {k : Calculation} {e : Error}

def answer (A : Arithmetic) (c : Calculator) (line : String) : Output := (c.feed A line).1

def InOrder (c : Calculator) : Prop := ∃ living, c.context.Keeps living ∧ c.context.Idle

/-- The same calculator, apart from pages and calculations. -/
structure Alike (d c : Calculator) : Prop where
  terms : d.context.terms = c.context.terms
  names : d.names = c.names
  values : d.values = c.values
  listing : d.listing = c.listing
  inOrder : d.InOrder

structure Equipped (c : Calculator) : Prop where
  willing : c.context.Willing
  selfContained : c.context.SelfContained
  legible : ∀ foundry, c.context.engine = .native foundry →
    ∀ p reason, foundry.target.generate p = .error reason → Unbroken reason
  bound : c.names.length ≤ c.values.length
  inOrder : c.InOrder

/-- What a line that is not blank may lead to: one line of output if it compiles, and one complaint
if it does not. -/
inductive Answers (A : Arithmetic) (c : Calculator) (line : String) : Output → Prop
  | value {k : Calculation} {x : Single}
    (hcompile : (c.context.compile A c.names line).result = .ok k)
    (hvalue : k.calculate A (c.context.compile A c.names line).context.call c.values = .ok x)
    (hline : Unbroken (x.fixed resultPlaces)) :
    Answers A c line ⟨line ++ " = " ++ x.fixed resultPlaces ++ "\n",
      if c.listing then (k.stream?.map Stream.listing).getD "" else ""⟩
  | complaint {e : Error} (hcompile : (c.context.compile A c.names line).result = .error e)
    (hline : Unbroken e.message) : Answers A c line ⟨"", "Calculation error: " ++ e.message ++ "\n"⟩

/-! One line. -/

theorem feed_of_blank (h : line.toList.all Text.isBlank = true) : c.feed A line = (.empty, c) := by
  rw [feed, if_pos h]

theorem answer_of_error (h : line.toList.all Text.isBlank = false)
    (hcompile : (c.context.compile A c.names line).result = .error e) :
    c.answer A line = complain e := by
  rw [answer, feed, if_neg (by simp [h])]
  simp only [hcompile]

theorem answer_of_ok {x : Single} (h : line.toList.all Text.isBlank = false)
    (hcompile : (c.context.compile A c.names line).result = .ok k)
    (hvalue : k.calculate A (c.context.compile A c.names line).context.call c.values = .ok x) :
    c.answer A line = ⟨line ++ " = " ++ x.fixed resultPlaces ++ "\n",
      if c.listing then (k.stream?.map Stream.listing).getD "" else ""⟩ := by
  rw [answer, feed, if_neg (by simp [h])]
  simp only [hcompile, hvalue, listingOf]
  cases c.listing with
  | false => exact Output.ext (by simp [Output.line, Output.empty]) rfl
  | true =>
    cases k.stream? with
    | none => exact Output.ext (by simp [Output.line, Output.empty]) rfl
    | some stream => exact Output.ext (by simp [Output.line]) (by simp [Output.line])

theorem Alike.refl (h : c.InOrder) : c.Alike c := ⟨rfl, rfl, rfl, rfl, h⟩

theorem Alike.trans {b : Calculator} (h : b.Alike d) (h' : d.Alike c) : b.Alike c :=
  ⟨h.terms.trans h'.terms, h.names.trans h'.names, h.values.trans h'.values,
    h.listing.trans h'.listing, h.inOrder⟩

/-- A line leaves the books in order: what it has compiled does not outlive it. -/
theorem alike_feed (h : c.InOrder) (A : Arithmetic) (line : String) : (c.feed A line).2.Alike c := by
  have houtcome :=
    c.context.compileScoped_outcome A c.context.options (.ofNames c.names) line false
  have hterms : (c.context.compile A c.names line).context.terms = c.context.terms := houtcome.terms
  obtain ⟨living, hkeeps, hidle⟩ := h
  have hkept := hkeeps.finalized houtcome
  have hsettled := hidle.finalized hkeeps houtcome
  rw [← Context.compile] at hkept hsettled
  unfold feed
  split
  next => exact .refl ⟨living, hkeeps, hidle⟩
  next =>
    dsimp only
    split
    next e hresult => exact ⟨hterms, rfl, rfl, rfl, _, hkept, hsettled⟩
    next k hresult =>
      rw [hresult] at hkept
      have hleft := hkept.discarded (List.perm_append_singleton k living)
      exact ⟨(Context.terms_discard _ k).trans hterms, rfl, rfl, rfl, living, hleft,
        ((hsettled.aside living).discarded k).idle hleft⟩

theorem Equipped.of_alike (h : c.Equipped) (halike : d.Alike c) : d.Equipped where
  willing := h.willing.of_terms halike.terms
  selfContained := h.selfContained.of_terms halike.terms
  legible := Context.target_of_terms
    (P := fun target => ∀ p reason, target.generate p = .error reason → Unbroken reason)
    h.legible halike.terms
  bound := by
    rw [halike.names, halike.values]
    exact h.bound
  inOrder := halike.inOrder

theorem Equipped.computes (h : c.Equipped)
    (hcompile : (c.context.compile A c.names line).result = .ok k)
    (call : Placement → List Single → Single) : ∃ x, k.calculate A call c.values = .ok x := by
  cases hparse : Expr.parse A (.ofNames c.names) line with
  | error e =>
    rw [Context.compile, Context.compileScoped_error hparse] at hcompile
    contradiction
  | ok t =>
    have hargs : k.numArgs ≤ c.values.length := by
      rw [Context.numArgs_of_compileScoped hparse hcompile]
      exact Nat.le_trans (Expr.reach_le_count hparse) h.bound
    exact (Context.coded_of_compileScoped hparse hcompile).1.exists_calculate hargs call

theorem Equipped.unbroken_message (h : c.Equipped)
    (hcompile : (c.context.compile A c.names line).result = .error e) : Unbroken e.message := by
  cases hparse : Expr.parse A (.ofNames c.names) line with
  | error e' =>
    rw [Context.compile, Context.compileScoped_error hparse] at hcompile
    obtain rfl := Except.error.inj hcompile
    exact Expr.unbroken_of_parse hparse
  | ok t =>
    obtain ⟨foundry, reason, hengine, hreason, rfl⟩ :=
      (Context.compileScoped_eq_error_iff hparse h.willing).1 hcompile
    exact Error.unbroken_message (Error.unbroken_note (h.legible foundry hengine _ reason hreason))

theorem Equipped.calculate_alike (h : c.Equipped) (halike : d.Alike c) {k' : Calculation}
    (hk : (d.context.compile A d.names line).result = .ok k)
    (hk' : (c.context.compile A c.names line).result = .ok k') (hsame : k.Alike k') :
    k.calculate A (d.context.compile A d.names line).context.call d.values =
      k'.calculate A (c.context.compile A c.names line).context.call c.values := by
  obtain ⟨living, hkeeps, hidle⟩ := h.inOrder
  obtain ⟨living', hkeeps', hidle'⟩ := halike.inOrder
  have hterms : (c.context.compile A c.names line).context.terms = c.context.terms :=
    (c.context.compileScoped_outcome A c.context.options (.ofNames c.names) line false).terms
  have houtcome :=
    d.context.compileScoped_outcome A d.context.options (.ofNames d.names) line false
  have hbackend : k.backend = (d.context.compile A d.names line).context.backend := by
    have hkept := (hkeeps'.finalized houtcome).backend k
    rw [← Context.compile, hk] at hkept
    exact hkept (List.mem_append_right _ (List.mem_singleton.2 rfl))
  rw [halike.values]
  refine hsame.calculate A _ _ c.values (Context.Installed.callsAlike ?_ ?_ hsame ?_ hbackend ?_ _)
  · exact Context.compileScoped_installed hkeeps' hidle' hk
  · exact Context.compileScoped_installed hkeeps hidle hk'
  · exact (houtcome.terms.trans halike.terms).trans hterms.symm
  · exact h.selfContained.of_terms hterms

/-- Whatever the lines before have left behind, a line is answered in the same way. -/
theorem Equipped.answer_alike (h : c.Equipped) (halike : d.Alike c) (line : String) :
    d.answer A line = c.answer A line := by
  cases hblank : line.toList.all Text.isBlank with
  | true => rw [answer, answer, feed_of_blank hblank, feed_of_blank hblank]
  | false =>
    have hagrees : (Slot.ofResult (d.context.compile A d.names line).result).Agrees
        (c.context.compile A c.names line).result := by
      have hoptions : d.context.options = c.context.options := congrArg (·.1) halike.terms
      rw [Context.compile, halike.names, hoptions]
      exact Context.compileScoped_agrees halike.terms h.willing _ _ line false false
    generalize hk' : (c.context.compile A c.names line).result = result at hagrees
    cases hk : (d.context.compile A d.names line).result with
    | error e =>
      rw [hk] at hagrees
      cases hagrees with
      | failed e => rw [answer_of_error hblank hk, answer_of_error hblank hk']
    | ok k =>
      rw [hk] at hagrees
      cases hagrees with
      | compiled hsame =>
        obtain ⟨x, hx⟩ := h.computes hk' (c.context.compile A c.names line).context.call
        have hx' := (h.calculate_alike halike hk hk' hsame).trans hx
        rw [answer_of_ok hblank hk hx', answer_of_ok hblank hk' hx, halike.listing, hsame.stream?]

theorem Equipped.answers (h : c.Equipped) (hblank : line.toList.all Text.isBlank = false) :
    c.Answers A line (c.answer A line) := by
  cases hcompile : (c.context.compile A c.names line).result with
  | error e =>
    rw [answer_of_error hblank hcompile]
    exact .complaint hcompile (h.unbroken_message hcompile)
  | ok k =>
    obtain ⟨x, hvalue⟩ := h.computes hcompile (c.context.compile A c.names line).context.call
    rw [answer_of_ok hblank hcompile hvalue]
    exact .value hcompile hvalue (Single.unbroken_fixed _ _)

/-! All lines. -/

theorem Equipped.feedAll (h : c.Equipped) (halike : d.Alike c) (lines : List String) :
    (d.feedAll A lines).1 = .join (lines.map (c.answer A)) ∧ (d.feedAll A lines).2.Alike c := by
  induction lines generalizing d with
  | nil => exact ⟨rfl, halike⟩
  | cons line rest ih =>
    have hnow : (d.feed A line).1 = c.answer A line := h.answer_alike halike line
    obtain ⟨hrest, hlast⟩ := ih ((alike_feed halike.inOrder A line).trans halike)
    refine ⟨?_, hlast⟩
    rw [Calculator.feedAll]
    dsimp only
    rw [hnow, hrest]
    rfl

/-- Each line is answered on its own, whatever lines came before and whatever they have left in the
context: a blank line by nothing, and any other by its value or by a complaint. -/
structure Linewise (A : Arithmetic) (c : Calculator) : Prop where
  blank : ∀ line : String, line.toList.all Text.isBlank = true → c.answer A line = .empty
  answers : ∀ d : Calculator, d.Alike c → ∀ line : String, line.toList.all Text.isBlank = false →
    d.Answers A line (c.answer A line)
  computes : ∀ d : Calculator, d.Alike c → ∀ (line : String) (k : Calculation),
    (d.context.compile A d.names line).result = .ok k →
      ∀ call, ∃ x, k.calculate A call d.values = .ok x
  feedAll : ∀ d : Calculator, d.Alike c → ∀ lines : List String,
    (d.feedAll A lines).1 = .join (lines.map (c.answer A)) ∧ (d.feedAll A lines).2.Alike c
  append : ∀ d d' : Calculator, d.Alike c → d'.Alike c → ∀ first second : List String,
    (d.feedAll A (first ++ second)).1 = (d.feedAll A first).1 ++ (d'.feedAll A second).1

theorem Equipped.linewise (h : c.Equipped) : c.Linewise A where
  blank line hblank := by rw [answer, feed_of_blank hblank]
  answers d halike line hblank := by
    rw [← h.answer_alike halike]
    exact (h.of_alike halike).answers hblank
  computes d halike line k hcompile := (h.of_alike halike).computes hcompile
  feedAll d halike lines := h.feedAll halike lines
  append d d' hd hd' first second := by
    rw [(h.feedAll hd _).1, (h.feedAll hd _).1, (h.feedAll hd' _).1, List.map_append,
      Output.join_append]

end Calculator

namespace Settings

variable {P : Platform} {s : Settings} {b : Backend}

theorem equipped (hP : b = .native → P.Reliable) (s : Settings) (options : Options) :
    Calculator.Equipped ⟨.ofBackend P b options, s.bindings.map Binding.name,
      s.bindings.map Binding.value, s.listing⟩ := by
  refine ⟨?_, ?_, ?_, by simp, [], .fresh P b options, .fresh P b options⟩
  · intro foundry hengine n r
    obtain ⟨hb, rfl⟩ := Context.foundry_of_ofBackend hengine
    exact (hP hb).willing n r
  · intro foundry hengine
    obtain ⟨hb, rfl⟩ := Context.foundry_of_ofBackend hengine
    exact (hP hb).selfContained
  · intro foundry hengine
    obtain ⟨hb, rfl⟩ := Context.foundry_of_ofBackend hengine
    exact (hP hb).legible

theorem exists_calculator (hb : s.chosen = .ok b) (hP : b = .native → P.Reliable) :
    ∃ c, s.calculator P = .ok c ∧ c.Equipped := by
  unfold calculator
  rw [hb]
  exact ⟨_, rfl, s.equipped hP _⟩

end Settings

theorem run_text {A : Arithmetic} {P : Platform} {read : List String → Except Report Settings}
    {arguments : List String} {c : Calculator} (hstart : start P read arguments = .ok c)
    (hequipped : c.Equipped) (input : String) :
    run A P read arguments (Text.bytes input) = ⟨0, .join ((texts input).map (c.answer A))⟩ := by
  have houtput := (hequipped.feedAll (A := A) (.refl hequipped.inOrder) (texts input)).1
  simp only [run, hstart, readable_lines, houtput, if_true]

/-- For all bindings, options and backends, on every platform that is reliable if native code is asked
for, there is a calculator, and it takes its input line by line: every line that is not blank is
answered once, by its value if it compiles and else by a complaint. A calculation that was compiled
never fails. However the command line is read, inputs that are put together, with a line feed between
them, are answered by what answers them on their own. -/
theorem Settings.calculator_linewise (A : Arithmetic) (P : Platform) (s : Settings) (b : Backend)
    (hb : s.chosen = .ok b) (hP : b = .native → P.Reliable) :
    ∃ c, s.calculator P = .ok c ∧ c.Linewise A ∧
      ∀ read arguments, read arguments = .ok s →
        (∀ input, run A P read arguments (Text.bytes input) =
            ⟨0, .join ((texts input).map (c.answer A))⟩ ∧
          ∀ line ∈ texts input, Unbroken line) ∧
        ∀ first second, (run A P read arguments (Text.bytes (first ++ "\n" ++ second))).output =
          (run A P read arguments (Text.bytes (first ++ "\n"))).output ++
            (run A P read arguments (Text.bytes second)).output := by
  obtain ⟨c, hc, hequipped⟩ := exists_calculator hb hP
  refine ⟨c, hc, hequipped.linewise, fun read arguments hread => ?_⟩
  have hstart : start P read arguments = .ok c := by simp only [start, hread, hc]
  have hrun (input : String) := run_text (A := A) hstart hequipped input
  refine ⟨fun input => ⟨hrun input, unbroken_texts input⟩, fun first second => ?_⟩
  rw [hrun, hrun, hrun, texts_append, List.map_append, Output.join_append]

/-- Lines that end in both ways or not at all, one of them blank and one that cannot be read, on a
machine that takes streams; and the same lines on the interpreter of streams, with a listing. -/
theorem Settings.calculator_linewise_mixed :
    let P : Platform := ⟨.streamed .whole 0, ⟨16, by decide⟩, fun _ _ => false⟩
    let input := "x+1\n\t\n1+\r\nx*x"
    let settings (backend : Option String) (listing : Bool) : Settings :=
      ⟨[⟨"x", ⟨0x40000000⟩⟩], backend, false, listing⟩
    Binding.read "x=2" = .ok ⟨"x", ⟨0x40000000⟩⟩ ∧ P.Reliable ∧
    (∃ c, (settings none false).calculator P = .ok c ∧ c.Linewise .whole ∧
      run .whole P (fun _ => .ok (settings none false)) ["x=2"] (Text.bytes input) =
        ⟨0, .join [c.answer .whole "x+1", .empty, c.answer .whole "1+", c.answer .whole "x*x"]⟩) ∧
    (run .whole P (fun _ => .ok (settings none false)) ["x=2"] (Text.bytes input)).output.out =
      "x+1 = 3.000000\nx*x = 4.000000\n" ∧
    ∃ c, (settings (some "bc") true).calculator P = .ok c ∧ c.Linewise .whole := by
  intro P input settings
  have hP : P.Reliable := by
    refine ⟨fun n r => rfl, Native.Target.streamed_selfContained .whole 0, ?_⟩
    rintro p reason ⟨⟩
  have htexts : texts input = ["x+1", "\t", "1+", "x*x"] := by decide +kernel
  refine ⟨by decide +kernel, hP, ?_, by decide +kernel, ?_⟩
  · obtain ⟨c, hc, hlinewise, hrun⟩ :=
      Settings.calculator_linewise .whole P (settings none false) .native rfl fun _ => hP
    refine ⟨c, hc, hlinewise, ?_⟩
    rw [((hrun (fun _ => .ok (settings none false)) ["x=2"] rfl).1 input).1, htexts,
      ← hlinewise.blank "\t" (by decide)]
    rfl
  · obtain ⟨c, hc, hlinewise, -⟩ := Settings.calculator_linewise .whole P
      (settings (some "bc") true) .bytecode (by decide +kernel) (by simp)
    exact ⟨c, hc, hlinewise⟩

end Console

end Reckoner
