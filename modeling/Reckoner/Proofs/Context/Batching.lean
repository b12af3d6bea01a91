import Reckoner.Proofs.Context.Execution
import Reckoner.Proofs.Native.Streamed

/-! A batch against its items on their own. Items are compiled one after another in pages that they
share; as long as pages are not refused, none of them notices the others. -/
namespace Reckoner

def Context.Compiles (A : Arithmetic) (c : Context) (item : Item) : Prop :=
  ∃ k, (c.compileItem A item).result = .ok k

/-- An item is tried if the batch keeps going or no item before it fails. -/
def Context.Tries (A : Arithmetic) (c : Context) (keepGoing : Bool) (earlier : List Item) : Prop :=
  keepGoing = true ∨ ∀ item ∈ earlier, c.Compiles A item

structure Slot.Due (A : Arithmetic) (c : Context) (keepGoing : Bool) (earlier : List Item)
    (item : Item) (slot : Slot) : Prop where
  tried : c.Tries A keepGoing earlier → slot.Agrees (c.compileItem A item).result
  skipped : ¬ c.Tries A keepGoing earlier → slot = .skipped

theorem Slot.Agrees.exists_ok_iff {result result' : Except Error Calculation}
    (h : (Slot.ofResult result).Agrees result') : (∃ k, result = .ok k) ↔ ∃ k, result' = .ok k := by
  cases result with
  | ok k => cases h with | compiled halike => simp
  | error e => cases h with | failed e => simp

namespace Batch

variable {A : Arithmetic} {c : Context} {keepGoing : Bool} {b : Batch} {done : List Item}
  {item : Item}

structure Follows (A : Arithmetic) (c : Context) (keepGoing : Bool) (done : List Item) (b : Batch) :
    Prop where
  terms : b.context.terms = c.terms
  length : b.slots.length = done.length
  slots : ∀ i item, done[i]? = some item →
    ∃ slot : Slot, b.slots[i]? = some slot ∧ slot.Due A c keepGoing (done.take i) item
  firstFailure : b.firstFailure = 0 ↔ ∀ item ∈ done, c.Compiles A item

theorem add_skipped (h : b.firstFailure ≠ 0 ∧ keepGoing = false) :
    b.add A keepGoing item = b.push .skipped := by
  unfold add
  rw [if_pos (by simpa using h)]

theorem noteFailure_firstFailure (b : Batch) (n : Nat) :
    (b.noteFailure (n + 1)).firstFailure ≠ 0 := by
  unfold noteFailure
  split
  next => exact Nat.succ_ne_zero n
  next h => exact fun hzero => h (.inl hzero)

theorem add_tried (h : ¬ (b.firstFailure ≠ 0 ∧ keepGoing = false)) (item : Item)
    (outcome : Context.Outcome)
    (houtcome : b.context.compileScoped A b.context.options item.scope item.source true = outcome) :
    (b.add A keepGoing item).slots = b.slots ++ [.ofResult outcome.result] ∧
    (b.add A keepGoing item).context = outcome.context ∧
    ((b.add A keepGoing item).firstFailure = 0 ↔
      b.firstFailure = 0 ∧ ∃ k, outcome.result = .ok k) := by
  unfold add
  rw [if_neg (by simpa using h), houtcome]
  obtain ⟨result, after, notes⟩ := outcome
  cases result with
  | ok k => simp [Slot.ofResult, push]
  | error e =>
    refine ⟨by simp [Slot.ofResult], by simp, ?_⟩
    simpa [push] using noteFailure_firstFailure _ _

theorem Follows.concat (h : b.Follows A c keepGoing done) {after : Batch} {slot : Slot}
    (hslots : after.slots = b.slots ++ [slot]) (hterms : after.context.terms = c.terms)
    (hdue : slot.Due A c keepGoing done item)
    (hfirst : after.firstFailure = 0 ↔ b.firstFailure = 0 ∧ c.Compiles A item) :
    after.Follows A c keepGoing (done ++ [item]) where
  terms := hterms
  length := by simp [hslots, h.length]
  slots := by
    intro i item' hitem
    rcases Nat.lt_trichotomy i done.length with hlt | rfl | hgt
    · rw [List.getElem?_append_left hlt] at hitem
      obtain ⟨slot', hslot', hdue'⟩ := h.slots i item' hitem
      rw [hslots, List.getElem?_append_left (h.length ▸ hlt),
        List.take_append_of_le_length (Nat.le_of_lt hlt)]
      exact ⟨slot', hslot', hdue'⟩
    · rw [List.getElem?_concat_length] at hitem
      obtain rfl := Option.some.inj hitem
      rw [hslots, ← h.length, List.getElem?_concat_length, h.length, List.take_left]
      exact ⟨slot, rfl, hdue⟩
    · rw [List.getElem?_eq_none (by rw [List.length_append]; exact hgt)] at hitem
      contradiction
  firstFailure := by
    rw [hfirst, h.firstFailure]
    simp [or_imp, forall_and]

theorem Follows.tries (h : b.Follows A c keepGoing done) :
    c.Tries A keepGoing done ↔ ¬ (b.firstFailure ≠ 0 ∧ keepGoing = false) := by
  rw [Context.Tries, ← h.firstFailure]
  cases keepGoing <;> simp

theorem Follows.add (h : b.Follows A c keepGoing done) (hwilling : c.Willing) (item : Item) :
    (b.add A keepGoing item).Follows A c keepGoing (done ++ [item]) := by
  by_cases htries : c.Tries A keepGoing done
  · obtain ⟨hslots, hcontext, hfirst⟩ := add_tried (h.tries.1 htries) item _ rfl
    have hoptions : b.context.options = c.options := congrArg (·.1) h.terms
    have hagrees : (Slot.ofResult (b.context.compileScoped A b.context.options item.scope item.source
        true).result).Agrees (c.compileItem A item).result := by
      rw [hoptions]
      exact Context.compileScoped_agrees h.terms hwilling c.options item.scope item.source true false
    refine h.concat hslots ?_ ⟨fun _ => hagrees, fun hskips => absurd htries hskips⟩ ?_
    · rw [hcontext]
      exact (Context.compileScoped_outcome ..).terms.trans h.terms
    · rw [hfirst, hagrees.exists_ok_iff, Context.Compiles]
  · have hstops : b.firstFailure ≠ 0 ∧ keepGoing = false := by
      rw [h.tries] at htries
      exact Classical.not_not.1 htries
    rw [add_skipped hstops]
    refine h.concat rfl h.terms ⟨fun htried => absurd htried htries, fun _ => rfl⟩ ?_
    exact ⟨fun hzero => absurd hzero hstops.1, And.left⟩

theorem Follows.addAll (h : b.Follows A c keepGoing done) (hwilling : c.Willing) (items : List Item) :
    (items.foldl (Batch.add A keepGoing) b).Follows A c keepGoing (done ++ items) := by
  induction items generalizing b done with
  | nil => rwa [List.append_nil]
  | cons item rest ih =>
    rw [List.append_cons]
    exact ih (h.add hwilling item)

theorem close_of_willing (h : b.context.Willing) :
    b.close.slots = b.slots ∧ b.close.context.terms = b.context.terms := by
  unfold close
  cases hengine : b.context.engine with
  | soft => exact ⟨rfl, rfl⟩
  | bytecode => exact ⟨rfl, rfl⟩
  | native foundry =>
    have hfreeze := foundry.pool.freezePending_outcome
    dsimp only
    cases hf : foundry.pool.freezePending with
    | mk result pool =>
      rw [hf] at hfreeze
      cases result with
      | ok done => exact ⟨rfl, Context.terms_withPool hengine hfreeze.refuses _⟩
      | error e => exact absurd hfreeze.denied (h.not_denied hengine)

end Batch

namespace Context

variable {A : Arithmetic} {c : Context} {living : List Calculation} {k : Calculation}
  {keepGoing : Bool} {items : List Item}

theorem compileBatch_follows (h : c.Willing) (A : Arithmetic) (keepGoing : Bool) (items : List Item) :
    (c.compileBatch A keepGoing items).context.terms = c.terms ∧
    (c.compileBatch A keepGoing items).slots.length = items.length ∧
    ∀ i item, items[i]? = some item → ∃ slot : Slot,
      (c.compileBatch A keepGoing items).slots[i]? = some slot ∧
      slot.Due A c keepGoing (items.take i) item := by
  have hstart : Batch.Follows A c keepGoing [] ⟨[], 0, c, []⟩ := ⟨rfl, rfl, by simp, by simp⟩
  have hfollows := hstart.addAll h items
  obtain ⟨hslots, hterms⟩ := Batch.close_of_willing (h.of_terms hfollows.terms)
  rw [compileBatch, hslots, hterms]
  exact ⟨hfollows.terms, hfollows.length, hfollows.slots⟩

theorem compileBatch_installed (hwilling : c.Willing) (hkeeps : c.Keeps living) (hidle : c.Idle)
    (hk : .compiled k ∈ (c.compileBatch A keepGoing items).slots) :
    (c.compileBatch A keepGoing items).context.Installed k := by
  obtain ⟨hterms, hlength, hslots⟩ := compileBatch_follows hwilling A keepGoing items
  obtain ⟨hkept, hidle⟩ := hkeeps.compileBatch hidle A keepGoing items
  refine hkept.installed hidle (List.mem_append_right _ (List.mem_filterMap.2 ⟨_, hk, rfl⟩)) ?_
  rintro foundry p placement hengine rfl
  -- The item compiles on its own, to a calculation of the same program.
  obtain ⟨i, hi⟩ := List.mem_iff_getElem?.1 hk
  have hlt : i < items.length := by
    rw [← hlength]
    exact (List.getElem?_eq_some_iff.1 hi).1
  obtain ⟨slot, hslot, hdue⟩ := hslots i items[i] (List.getElem?_eq_getElem hlt)
  obtain rfl := Option.some.inj (hi.symm.trans hslot)
  by_cases htries : c.Tries A keepGoing (items.take i)
  · have hagrees := hdue.tried htries
    generalize hresult : (c.compileItem A items[i]).result = result at hagrees
    cases hagrees with
    | compiled halike =>
      obtain ⟨placement', rfl⟩ := halike.program p placement rfl
      exact generates_of_compileScoped hterms hresult hengine
  · have hskipped := hdue.skipped htries
    contradiction

theorem compileBatch_callsAlike {i : Nat} {item : Item} {k' : Calculation} (hwilling : c.Willing)
    (hself : c.SelfContained) (hkeeps : c.Keeps living) (hidle : c.Idle)
    (hitem : items[i]? = some item)
    (hk : (c.compileBatch A keepGoing items).slots[i]? = some (.compiled k))
    (hk' : (c.compileItem A item).result = .ok k') :
    k.Alike k' ∧ ∀ args, k.CallsAlike (c.compileBatch A keepGoing items).context.call
      (c.compileItem A item).context.call args k' := by
  obtain ⟨hterms, -, hslots⟩ := compileBatch_follows hwilling A keepGoing items
  obtain ⟨slot, hslot, hdue⟩ := hslots i item hitem
  obtain rfl := Option.some.inj (hk.symm.trans hslot)
  have halike : k.Alike k' := by
    by_cases htries : c.Tries A keepGoing (items.take i)
    · have hagrees := hdue.tried htries
      rw [hk'] at hagrees
      cases hagrees with
      | compiled halike => exact halike
    · have hskipped := hdue.skipped htries
      contradiction
  have hitemTerms : (c.compileItem A item).context.terms = c.terms :=
    (c.compileScoped_outcome A c.options item.scope item.source false).terms
  have hbackend : k.backend = (c.compileBatch A keepGoing items).context.backend := by
    have hkept := (hkeeps.compileBatch hidle A keepGoing items).1.backend k
    exact hkept (List.mem_append_right _ (List.mem_filterMap.2 ⟨_, List.mem_of_getElem? hk, rfl⟩))
  refine ⟨halike, Installed.callsAlike ?_ ?_ halike (hterms.trans hitemTerms.symm) hbackend ?_⟩
  · exact compileBatch_installed hwilling hkeeps hidle (List.mem_of_getElem? hk)
  · exact compileScoped_installed hkeeps hidle hk'
  · exact hself.of_terms hitemTerms

/-- If pages are not refused, every item of a batch that is tried gets the slot that it would get on
its own, with the same errors and with calculations of the same code, and all others are skipped.
Native code of the batch is in place and executable at the end, as that of an item on its own would be,
though items share pages. So the calculations compute the same where they stand, on every machine
whose code stands for itself. -/
theorem compileBatch_agrees (A : Arithmetic) (c : Context) (keepGoing : Bool) (items : List Item)
    (hwilling : c.Willing) :
    (c.compileBatch A keepGoing items).slots.length = items.length ∧
    (∀ i item, items[i]? = some item → ∃ slot : Slot,
      (c.compileBatch A keepGoing items).slots[i]? = some slot ∧
      slot.Due A c keepGoing (items.take i) item) ∧
    ∀ living, c.Keeps living → c.Idle →
      (∀ k, .compiled k ∈ (c.compileBatch A keepGoing items).slots →
        (c.compileBatch A keepGoing items).context.Installed k) ∧
      (∀ item k, (c.compileItem A item).result = .ok k →
        (c.compileItem A item).context.Installed k) ∧
      (c.SelfContained → ∀ (i : Nat) (item : Item) (k k' : Calculation), items[i]? = some item →
        (c.compileBatch A keepGoing items).slots[i]? = some (.compiled k) →
        (c.compileItem A item).result = .ok k' → ∀ args,
          k.calculate A (c.compileBatch A keepGoing items).context.call args =
            k'.calculate A (c.compileItem A item).context.call args ∧
          k.calculateUnchecked A (c.compileBatch A keepGoing items).context.call args =
            k'.calculateUnchecked A (c.compileItem A item).context.call args) := by
  obtain ⟨-, hlength, hslots⟩ := compileBatch_follows hwilling A keepGoing items
  refine ⟨hlength, hslots, fun living hkeeps hidle => ⟨fun k hk => ?_, fun item k hresult => ?_, ?_⟩⟩
  · exact compileBatch_installed hwilling hkeeps hidle hk
  · exact compileScoped_installed hkeeps hidle hresult
  · intro hself i item k k' hitem hk hk' args
    obtain ⟨halike, hcalls⟩ := compileBatch_callsAlike hwilling hself hkeeps hidle hitem hk hk'
    exact ⟨halike.calculate A _ _ args (hcalls args), halike.calculateUnchecked A _ _ args (hcalls args)⟩

/-- The first two items share a page, the third fails, and the last one finds the page full. If the
batch keeps going its code is in place, and computes at four what it computes on its own; if not, it is
skipped. -/
theorem compileBatch_agrees_shared :
    let c : Context := ⟨.native ⟨.streamed .whole 64, .empty (.willing 128)⟩, .optimized, 0⟩
    let items := ["x+1", "2*x", "y", "sqrt(x)"].map fun source => Item.mk source ⟨["x"], 1⟩
    let last : Calculation := .native ⟨.call .sqrt (.arg 0), 1⟩ ⟨1, 0⟩
    c.Willing ∧
    (c.compileBatch .whole true items).slots =
      [.compiled (.native ⟨.binary .add (.arg 0) (.imm ⟨0x3f800000⟩), 1⟩ ⟨0, 0⟩),
        .compiled (.native ⟨.binary .mul (.imm ⟨0x40000000⟩) (.arg 0), 1⟩ ⟨0, 64⟩),
        .failed (.argName "y"), .compiled last] ∧
    Slot.Due .whole c true (items.take 3) ⟨"sqrt(x)", ⟨["x"], 1⟩⟩ (.compiled last) ∧
    (c.compileBatch .whole true items).context.Installed last ∧
    last.calculate .whole (c.compileBatch .whole true items).context.call [⟨0x40800000⟩] =
      .ok ⟨0x40000000⟩ ∧
    Slot.Due .whole c false (items.take 3) ⟨"sqrt(x)", ⟨["x"], 1⟩⟩ .skipped := by
  intro c items last
  have hwilling : c.Willing := by
    rintro _ ⟨⟩ n r
    rfl
  have hslots : (c.compileBatch .whole true items).slots =
      [.compiled (.native ⟨.binary .add (.arg 0) (.imm ⟨0x3f800000⟩), 1⟩ ⟨0, 0⟩),
        .compiled (.native ⟨.binary .mul (.imm ⟨0x40000000⟩) (.arg 0), 1⟩ ⟨0, 64⟩),
        .failed (.argName "y"), .compiled last] := by
    decide +kernel
  have hskipped : (c.compileBatch .whole false items).slots[3]? = some .skipped := by
    decide +kernel
  have halone : (c.compileItem .whole ⟨"sqrt(x)", ⟨["x"], 1⟩⟩).result =
      .ok (.native ⟨.call .sqrt (.arg 0), 1⟩ ⟨0, 0⟩) := by
    decide +kernel
  have hvalue : (Calculation.native ⟨.call .sqrt (.arg 0), 1⟩ ⟨0, 0⟩).calculate .whole
      (c.compileItem .whole ⟨"sqrt(x)", ⟨["x"], 1⟩⟩).context.call [⟨0x40800000⟩] =
        .ok ⟨0x40000000⟩ := by
    decide +kernel
  let P : Platform := ⟨.streamed .whole 64, ⟨128, by decide⟩, fun _ _ => false⟩
  have hkeeps : c.Keeps [] := .fresh P .native .optimized
  have hidle : c.Idle := .fresh P .native .optimized
  have hself : c.SelfContained := by
    rintro _ ⟨⟩
    exact Native.Target.streamed_selfContained .whole 64
  obtain ⟨-, hgoing, hinstalled⟩ := compileBatch_agrees .whole c true items hwilling
  obtain ⟨-, hstopping, -⟩ := compileBatch_agrees .whole c false items hwilling
  obtain ⟨slot, hslot, hdue⟩ := hgoing 3 _ rfl
  obtain ⟨slot', hslot', hdue'⟩ := hstopping 3 _ rfl
  obtain ⟨hcode, -, hsame⟩ := hinstalled [] hkeeps hidle
  have hlast : (c.compileBatch .whole true items).slots[3]? = some (.compiled last) := by
    rw [hslots]
    rfl
  obtain rfl := Option.some.inj (hlast.symm.trans hslot)
  obtain rfl := Option.some.inj (hskipped.symm.trans hslot')
  refine ⟨hwilling, hslots, hdue, hcode last (List.mem_of_getElem? hlast), ?_, hdue'⟩
  rw [(hsame hself 3 _ last _ rfl hlast halone _).1]
  exact hvalue

end Context

end Reckoner
