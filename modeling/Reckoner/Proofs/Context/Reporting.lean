import Reckoner.Proofs.Context.Batching
import Reckoner.Proofs.Number.Whole

/-! What a batch reports, whatever pages are refused in the course of it: a slot for each item, in
their order, first those that were tried and then those that were skipped, and the number of the first
failure. A batch that is taken back at its end reports failures that it had not met, perhaps before
the first one that it had. -/
namespace Reckoner

namespace Slot

def firstFailed (slots : List Slot) : Nat :=
  match slots.findIdx? isFailed with
  | some i => i + 1
  | none => 0

def retracted (e : Error) : Slot → Slot
  | compiled _ => failed e
  | failed e => failed e
  | skipped => skipped

def settled (freeze : Except Error Unit) (slot : Slot) : Slot :=
  match freeze with
  | .ok () => slot
  | .error e => slot.retracted e

theorem settled_skipped (freeze : Except Error Unit) : skipped.settled freeze = skipped := by
  cases freeze <;> rfl

theorem firstFailed_concat {slot : Slot} (h : slot.isFailed = false) (slots : List Slot) :
    firstFailed (slots ++ [slot]) = firstFailed slots := by
  simp [firstFailed, List.findIdx?_append, List.findIdx?_cons, h]

theorem firstFailed_eq_zero_iff {slots : List Slot} :
    firstFailed slots = 0 ↔ ∀ slot ∈ slots, slot.isFailed = false := by
  rw [firstFailed, ← List.findIdx?_eq_none_iff]
  cases slots.findIdx? isFailed <;> simp

theorem firstFailed_ne_zero_iff {slots : List Slot} :
    firstFailed slots ≠ 0 ↔ ∃ slot ∈ slots, slot.isFailed = true := by
  simp [firstFailed_eq_zero_iff]

theorem firstFailed_fail (slot : Slot) (h : slot.isFailed = false) (e : Error)
    (done rest : List Slot) :
    firstFailed (done ++ failed e :: rest) =
      if firstFailed (done ++ slot :: rest) = 0 ∨
        done.length + 1 < firstFailed (done ++ slot :: rest) then done.length + 1
      else firstFailed (done ++ slot :: rest) := by
  have hfailed : (failed e).isFailed = true := rfl
  simp only [firstFailed, List.findIdx?_append, List.findIdx?_cons, h, hfailed]
  cases hdone : done.findIdx? isFailed with
  | some i =>
    have hlt : i < done.length := (List.findIdx?_eq_some_iff_getElem.1 hdone).1
    have hlater : ¬ (i + 1 = 0 ∨ done.length + 1 < i + 1) := by omega
    simp only [Option.some_or]
    exact (if_neg hlater).symm
  | none => cases rest.findIdx? isFailed <;> simp

theorem isFailed_retracted_of_isFailed {slot : Slot} (h : slot.isFailed = true) (e : Error) :
    (slot.retracted e).isFailed = true := by
  cases slot with
  | compiled k => rfl
  | failed e' => rfl
  | skipped => contradiction

@[simp] theorem retracted_eq_skipped_iff {slot : Slot} {e : Error} :
    slot.retracted e = skipped ↔ slot = skipped := by
  cases slot <;> simp [retracted]

theorem calculation?_retracted (e : Error) (slot : Slot) :
    (slot.retracted e).calculation? = none := by
  cases slot <;> rfl

theorem ofResult_ne_skipped (result : Except Error Calculation) : ofResult result ≠ skipped := by
  cases result <;> simp [ofResult]

/-- Slots of items that were tried come first. If others follow then one of the items has failed, and
the batch does not keep going. -/
inductive Laid (keepGoing : Bool) (slots : List Slot) : Prop
  | mk (tried : List Slot) (rest : Nat) (hslots : slots = tried ++ List.replicate rest skipped)
    (htried : skipped ∉ tried)
    (hrest : rest = 0 ∨ keepGoing = false ∧ ∃ slot ∈ tried, slot.isFailed = true)

namespace Laid

variable {keepGoing : Bool} {slots : List Slot}

theorem nil (keepGoing : Bool) : Laid keepGoing [] := ⟨[], 0, rfl, by simp, .inl rfl⟩

theorem skip (h : Laid keepGoing slots) (hstops : firstFailed slots ≠ 0 ∧ keepGoing = false) :
    Laid keepGoing (slots ++ [skipped]) := by
  obtain ⟨tried, rest, rfl, htried, hrest⟩ := h
  obtain ⟨hfailed, hkeepGoing⟩ := hstops
  refine ⟨tried, rest + 1, ?_, htried, .inr ⟨hkeepGoing, ?_⟩⟩
  · rw [List.replicate_succ', List.append_assoc]
  · obtain ⟨slot, hmem, hslot⟩ := firstFailed_ne_zero_iff.1 hfailed
    rcases List.mem_append.1 hmem with hmem | hmem
    · exact ⟨slot, hmem, hslot⟩
    · rw [List.eq_of_mem_replicate hmem] at hslot
      contradiction

theorem proceed (h : Laid keepGoing slots) (hgoes : ¬ (firstFailed slots ≠ 0 ∧ keepGoing = false))
    {slot : Slot} (hslot : slot ≠ skipped) : Laid keepGoing (slots ++ [slot]) := by
  obtain ⟨tried, rest, rfl, htried, hrest⟩ := h
  rcases hrest with rfl | ⟨hkeepGoing, failed, hmem, hfailed⟩
  · refine ⟨tried ++ [slot], 0, by simp, ?_, .inl rfl⟩
    simpa using ⟨htried, hslot.symm⟩
  · -- If something had been skipped so far then this item would be too.
    refine absurd ⟨?_, hkeepGoing⟩ hgoes
    exact firstFailed_ne_zero_iff.2 ⟨failed, List.mem_append_left _ hmem, hfailed⟩

theorem retracted (h : Laid keepGoing slots) (e : Error) :
    Laid keepGoing (slots.map (Slot.retracted e)) := by
  obtain ⟨tried, rest, rfl, htried, hrest⟩ := h
  refine ⟨tried.map (Slot.retracted e), rest, ?_, ?_, ?_⟩
  · rw [List.map_append, List.map_replicate, Slot.retracted]
  · simpa using htried
  · rcases hrest with hnone | ⟨hkeepGoing, slot, hmem, hslot⟩
    · exact .inl hnone
    · exact .inr ⟨hkeepGoing, _, List.mem_map_of_mem hmem, isFailed_retracted_of_isFailed hslot e⟩

theorem skipped_notMem (h : Laid true slots) : skipped ∉ slots := by
  obtain ⟨tried, rest, rfl, htried, hrest⟩ := h
  rcases hrest with rfl | ⟨hkeepGoing, -⟩
  · simpa using htried
  · contradiction

theorem of_skipped (h : Laid keepGoing slots) {i : Nat} (hi : slots[i]? = some skipped) :
    (∃ j < i, ∃ e, slots[j]? = some (failed e)) ∧
      ∀ j, i ≤ j → j < slots.length → slots[j]? = some skipped := by
  obtain ⟨tried, rest, rfl, htried, hrest⟩ := h
  have hle : tried.length ≤ i := by
    apply Nat.le_of_not_lt
    intro hlt
    rw [List.getElem?_append_left hlt] at hi
    exact htried (List.mem_of_getElem? hi)
  rw [List.getElem?_append_right hle, List.getElem?_replicate] at hi
  constructor
  · rcases hrest with rfl | ⟨-, slot, hmem, hslot⟩
    · simp at hi
    obtain ⟨j, hj⟩ := List.mem_iff_getElem?.1 hmem
    have hlt : j < tried.length := (List.getElem?_eq_some_iff.1 hj).1
    cases slot with
    | failed e => exact ⟨j, by omega, e, by rw [List.getElem?_append_left hlt, hj]⟩
    | compiled k => contradiction
    | skipped => contradiction
  · intro j hij hj
    rw [List.length_append, List.length_replicate] at hj
    rw [List.getElem?_append_right (by omega), List.getElem?_replicate, if_pos (by omega)]

end Laid

end Slot

def Batch.trial (A : Arithmetic) (b : Batch) (item : Item) : Context.Outcome :=
  b.context.compileScoped A b.context.options item.scope item.source true

def Context.tryAll (A : Arithmetic) (c : Context) (keepGoing : Bool) (items : List Item) : Batch :=
  items.foldl (Batch.add A keepGoing) ⟨[], 0, c, []⟩

def Batch.freezeResult (b : Batch) : Except Error Unit :=
  match b.context.pool? with
  | some pool => pool.freezePending.1
  | none => .ok ()

namespace Batch

variable {A : Arithmetic} {keepGoing : Bool} {b : Batch} {item : Item}

theorem firstFailure_noteFailure (b : Batch) (number : Nat) :
    (b.noteFailure number).firstFailure =
      if b.firstFailure = 0 ∨ number < b.firstFailure then number else b.firstFailure := by
  unfold noteFailure
  split <;> rfl

structure Shaped (keepGoing : Bool) (b : Batch) : Prop where
  laid : Slot.Laid keepGoing b.slots
  firstFailure : b.firstFailure = Slot.firstFailed b.slots

theorem firstFailure_add (h : b.firstFailure = Slot.firstFailed b.slots)
    (hgoes : ¬ (b.firstFailure ≠ 0 ∧ keepGoing = false)) (A : Arithmetic) (item : Item) :
    (b.add A keepGoing item).firstFailure =
      Slot.firstFailed (b.slots ++ [.ofResult (b.trial A item).result]) := by
  have htrial : b.context.compileScoped A b.context.options item.scope item.source true =
      b.trial A item := rfl
  unfold add
  rw [if_neg (by simpa using hgoes), htrial]
  obtain ⟨result, after, notes⟩ := b.trial A item
  cases result with
  | ok k =>
    rw [Slot.ofResult, Slot.firstFailed_concat rfl, ← h]
    rfl
  | error e =>
    -- As if the slot had been there, skipped, and now failed.
    rw [Slot.ofResult, Slot.firstFailed_fail .skipped rfl, Slot.firstFailed_concat rfl, ← h]
    exact firstFailure_noteFailure _ _

theorem Shaped.add (h : b.Shaped keepGoing) (A : Arithmetic) (item : Item) :
    (b.add A keepGoing item).Shaped keepGoing := by
  have hfirst := h.firstFailure
  by_cases hstops : b.firstFailure ≠ 0 ∧ keepGoing = false
  · rw [add_skipped hstops]
    rw [hfirst] at hstops
    exact ⟨h.laid.skip hstops, hfirst.trans (Slot.firstFailed_concat rfl b.slots).symm⟩
  · obtain ⟨hslots, -, -⟩ := add_tried hstops item (b.trial A item) rfl
    constructor
    · rw [hslots]
      rw [hfirst] at hstops
      exact h.laid.proceed hstops (Slot.ofResult_ne_skipped _)
    · rw [hslots, firstFailure_add hfirst hstops]

theorem Shaped.addAll (h : b.Shaped keepGoing) (A : Arithmetic) (items : List Item) :
    (items.foldl (Batch.add A keepGoing) b).Shaped keepGoing := by
  induction items generalizing b with
  | nil => exact h
  | cons item rest ih => exact ih (h.add A item)

/-! The end of a batch. -/

inductive Closing (b : Batch) : Batch → Prop
  | granted (hfreeze : b.freezeResult = .ok ()) (c : Context) : Closing b { b with context := c }
  | refused (e : Error) (hfreeze : b.freezeResult = .error e) (c : Context) :
    Closing b (b.slots.foldl (retract e) { b with slots := [], context := c })

theorem close_outcome (b : Batch) : b.Closing b.close := by
  unfold close
  split
  next hengine => exact .granted (by simp [freezeResult, Context.pool?, hengine]) b.context
  next hengine => exact .granted (by simp [freezeResult, Context.pool?, hengine]) b.context
  next foundry hengine =>
    have hresult : b.freezeResult = foundry.pool.freezePending.1 := by
      rw [freezeResult, Context.pool?_native hengine]
    split
    next pool hfreeze => exact .granted (by rw [hresult, hfreeze]) _
    next e pool hfreeze => exact .refused e (by rw [hresult, hfreeze]) _

theorem slots_retractAll (e : Error) (slots : List Slot) (b : Batch) :
    (slots.foldl (retract e) b).slots = b.slots ++ slots.map (Slot.retracted e) := by
  induction slots generalizing b with
  | nil => simp
  | cons slot rest ih =>
    rw [List.foldl_cons, ih, List.map_cons, List.append_cons]
    cases slot <;> simp [retract, Slot.retracted]

theorem firstFailure_retractAll (e : Error) (slots : List Slot)
    (h : b.firstFailure = Slot.firstFailed (b.slots ++ slots)) :
    (slots.foldl (retract e) b).firstFailure =
      Slot.firstFailed (slots.foldl (retract e) b).slots := by
  induction slots generalizing b with
  | nil => simpa using h
  | cons slot rest ih =>
    apply ih
    cases slot with
    | compiled k =>
      have hfail := Slot.firstFailed_fail (.compiled k) rfl e b.slots rest
      rw [← h] at hfail
      simpa [retract, push, firstFailure_noteFailure] using hfail.symm
    | failed e' => simpa [retract, push] using h
    | skipped => simpa [retract, push] using h

theorem Shaped.closed (h : b.Shaped keepGoing) {after : Batch} (hclose : b.Closing after) :
    after.Shaped keepGoing := by
  cases hclose with
  | granted hfreeze c => exact ⟨h.laid, h.firstFailure⟩
  | refused e hfreeze c =>
    constructor
    · rw [slots_retractAll]
      exact h.laid.retracted e
    · exact firstFailure_retractAll e b.slots h.firstFailure

/-! The slot of an item is in the place of the item. -/

theorem slots_add (A : Arithmetic) (keepGoing : Bool) (b : Batch) (item : Item) :
    ∃ slot, (b.add A keepGoing item).slots = b.slots ++ [slot] ∧
      (slot = .skipped ∨ slot = .ofResult (b.trial A item).result) := by
  by_cases hstops : b.firstFailure ≠ 0 ∧ keepGoing = false
  · rw [add_skipped hstops]
    exact ⟨.skipped, rfl, .inl rfl⟩
  · obtain ⟨hslots, -, -⟩ := add_tried hstops item (b.trial A item) rfl
    exact ⟨_, hslots, .inr rfl⟩

theorem slots_addAll (A : Arithmetic) (keepGoing : Bool) (b : Batch) (items : List Item) :
    ∃ more, (items.foldl (Batch.add A keepGoing) b).slots = b.slots ++ more ∧
      more.length = items.length := by
  induction items generalizing b with
  | nil => exact ⟨[], by simp, rfl⟩
  | cons item rest ih =>
    obtain ⟨slot, hslot, -⟩ := slots_add A keepGoing b item
    obtain ⟨more, hmore, hlength⟩ := ih (b.add A keepGoing item)
    exact ⟨slot :: more, by simp [hmore, hslot], by simp [hlength]⟩

theorem Closing.slots {after : Batch} (h : b.Closing after) :
    after.slots = b.slots.map (Slot.settled b.freezeResult) := by
  cases h with
  | granted hfreeze c =>
    rw [hfreeze]
    exact (List.map_id b.slots).symm
  | refused e hfreeze c =>
    rw [hfreeze, slots_retractAll]
    rfl

end Batch

namespace Context

variable {A : Arithmetic} {c : Context} {keepGoing : Bool} {items : List Item}

theorem compileBatch_closing (A : Arithmetic) (c : Context) (keepGoing : Bool) (items : List Item) :
    (c.tryAll A keepGoing items).Closing (c.compileBatch A keepGoing items) :=
  Batch.close_outcome _

theorem length_tryAll (A : Arithmetic) (c : Context) (keepGoing : Bool) (items : List Item) :
    (c.tryAll A keepGoing items).slots.length = items.length := by
  obtain ⟨more, hmore, hlength⟩ := Batch.slots_addAll A keepGoing ⟨[], 0, c, []⟩ items
  rw [tryAll, hmore, List.nil_append, hlength]

theorem slots_tryAll {i : Nat} {item : Item} (hitem : items[i]? = some item) :
    ∃ slot, (c.tryAll A keepGoing items).slots[i]? = some slot ∧ (slot = .skipped ∨
      slot = .ofResult ((c.tryAll A keepGoing (items.take i)).trial A item).result) := by
  obtain ⟨hlt, rfl⟩ := List.getElem?_eq_some_iff.1 hitem
  obtain ⟨slot, hslot, hresult⟩ :=
    Batch.slots_add A keepGoing (c.tryAll A keepGoing (items.take i)) items[i]
  obtain ⟨more, hmore, -⟩ := Batch.slots_addAll A keepGoing
    ((c.tryAll A keepGoing (items.take i)).add A keepGoing items[i]) (items.drop (i + 1))
  have hall : c.tryAll A keepGoing items = (items.drop (i + 1)).foldl (Batch.add A keepGoing)
      ((c.tryAll A keepGoing (items.take i)).add A keepGoing items[i]) := by
    rw [tryAll, tryAll, ← List.foldl_cons (f := Batch.add A keepGoing), ← List.foldl_append,
      List.getElem_cons_drop, List.take_append_drop]
  have hbefore : (c.tryAll A keepGoing (items.take i)).slots.length = i := by
    rw [length_tryAll, List.length_take]
    omega
  refine ⟨slot, ?_, hresult⟩
  rw [hall, hmore, hslot, List.append_assoc, List.getElem?_append_right (by omega), hbefore]
  simp

end Context

structure Batch.Reports (A : Arithmetic) (c : Context) (keepGoing : Bool) (items : List Item)
    (b : Batch) : Prop where
  length : b.slots.length = items.length
  -- An item is skipped, or its slot has what came of it after the items before.
  order : ∀ (i : Nat) (item : Item), items[i]? = some item →
    b.slots[i]? = some .skipped ∨
    b.slots[i]? = some (.settled (c.tryAll A keepGoing items).freezeResult
      (.ofResult ((c.tryAll A keepGoing (items.take i)).trial A item).result))
  firstFailure : b.firstFailure = Slot.firstFailed b.slots
  going : keepGoing = true → Slot.skipped ∉ b.slots
  cause : ∀ i : Nat, b.slots[i]? = some .skipped → ∃ j < i, ∃ e, b.slots[j]? = some (.failed e)
  rest : ∀ i : Nat, b.slots[i]? = some .skipped →
    ∀ j, i ≤ j → j < b.slots.length → b.slots[j]? = some .skipped

/-- Whatever the items are and whichever pages are refused, the slots are those of the items in their
order. The first failure is that of the first slot that has failed, if any, and items are skipped only
after a failure, and then all that are left, unless the batch keeps going. -/
theorem Context.compileBatch_reports (A : Arithmetic) (c : Context) (keepGoing : Bool)
    (items : List Item) :
    (c.compileBatch A keepGoing items).Reports A c keepGoing items := by
  have hstart : Batch.Shaped keepGoing ⟨[], 0, c, []⟩ := ⟨.nil keepGoing, rfl⟩
  have hshaped : (c.compileBatch A keepGoing items).Shaped keepGoing :=
    (hstart.addAll A items).closed (c.compileBatch_closing A keepGoing items)
  have hslots := (c.compileBatch_closing A keepGoing items).slots
  exact {
    length := by rw [hslots, List.length_map, length_tryAll]
    order := by
      intro i item hitem
      obtain ⟨slot, hslot, hresult⟩ := slots_tryAll hitem
      rw [hslots, List.getElem?_map, hslot, Option.map_some]
      rcases hresult with rfl | rfl
      · rw [Slot.settled_skipped]
        exact .inl rfl
      · exact .inr rfl
    firstFailure := hshaped.firstFailure
    going := by
      rintro rfl
      exact hshaped.laid.skipped_notMem
    cause := fun i hi => (hshaped.laid.of_skipped hi).1
    rest := fun i hi => (hshaped.laid.of_skipped hi).2 }

theorem Context.compileBatch_reports_retracted :
    let c : Context :=
      ⟨.native ⟨.streamed .whole 0, .empty ⟨64, fun n _ => n = 3, []⟩⟩, .optimized, 0⟩
    let items : List Item := [⟨"1", ⟨[], 0⟩⟩, ⟨"(", ⟨[], 0⟩⟩, ⟨"2", ⟨[], 0⟩⟩]
    let tried := c.tryAll .whole false items
    let b := c.compileBatch .whole false items
    tried.firstFailure = 2 ∧ b.firstFailure = 1 ∧
    b.slots.map Slot.isFailed = [true, true, false] ∧ b.Reports .whole c false items := by
  intro c items tried b
  exact ⟨rfl, rfl, rfl, compileBatch_reports .whole c false items⟩

end Reckoner
