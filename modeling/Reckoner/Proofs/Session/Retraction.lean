import Reckoner.Proofs.Context.Reporting
import Reckoner.Proofs.Context.Runs
import Reckoner.Proofs.Page.Frugality
import Reckoner.Proofs.Session.Balance

/-! A batch that is taken back. Its slots give up their calculations one after another, and with them
the pages that it had filled and frozen on the way, until only the old calculations are left. Who is
alive decides what is in use, so the pages are as they were before. -/
namespace Reckoner

/-- The second pool has in use what the first one has, and what it has beyond is free. -/
structure Pool.Restored (p q : Pool) : Prop where
  active : q.active.Perm p.active
  refs : ∀ (id : Nat) (page : Page), p.pages[id]? = some page →
    ∃ after, q.pages[id]? = some after ∧ after.refs = page.refs
  pending : q.pending = none
  opened : ∀ id, p.pages.length ≤ id → id < q.pages.length → id ∈ q.free

theorem House.InOrder.mem_active_iff {house : House} (h : house.InOrder) {id : Nat} :
    id ∈ house.pool.active ↔ 0 < headcount house.tenants id := by
  have hconsistent := h.accounted.consistent
  constructor
  · intro hactive
    have hpage := List.getElem?_eq_getElem ((hconsistent.mem_iff id).1 (.inl hactive))
    rw [← h.hosts.refs id _ hpage]
    exact (hconsistent.active_iff id _ hpage).1 hactive
  · intro hpos
    obtain ⟨t, ht, hid⟩ := List.countP_pos_iff.1 hpos
    obtain rfl := of_decide_eq_true hid
    obtain ⟨page, hpage, -⟩ := h.hosts.lives t ht
    rw [hconsistent.active_iff _ page hpage, h.hosts.refs _ page hpage]
    exact hpos

namespace Pool

variable {p q : Pool}

theorem Restored.of_headcount {tenants tenants' : List Tenant} (hp : House.InOrder ⟨p, tenants⟩)
    (hq : House.InOrder ⟨q, tenants'⟩) (hcount : ∀ id, headcount tenants' id = headcount tenants id)
    (hlength : p.pages.length ≤ q.pages.length) (hpending : q.pending = none) : p.Restored q := by
  have hactive : ∀ id, id ∈ q.active ↔ id ∈ p.active := by
    intro id
    rw [hq.mem_active_iff, hp.mem_active_iff, hcount]
  have hbefore := hp.accounted.consistent
  have hafter := hq.accounted.consistent
  refine ⟨?_, ?_, hpending, ?_⟩
  · exact (List.perm_ext_iff_of_nodup hafter.active_nodup hbefore.active_nodup).2 hactive
  · intro id page hpage
    have hlt : id < p.pages.length := (List.getElem?_eq_some_iff.1 hpage).1
    have hpage' := List.getElem?_eq_getElem (Nat.lt_of_lt_of_le hlt hlength)
    refine ⟨_, hpage', ?_⟩
    rw [hq.hosts.refs id _ hpage', hp.hosts.refs id page hpage]
    exact hcount id
  · intro id hle hlt
    rcases (hafter.mem_iff id).2 hlt with hmem | hmem
    · have hlt := (hbefore.mem_iff id).1 (.inl ((hactive id).1 hmem))
      exact absurd hlt (Nat.not_lt.2 hle)
    · exact hmem

theorem length_le_act (h : p.Accounted []) (action : Action) :
    p.pages.length ≤ (p.act action).pages.length := by
  obtain ⟨events, hstocks⟩ := act_stocks h action
  rw [← length_lengths, ← length_lengths]
  rcases hstocks.lengths with hsame | ⟨hmore, -, -⟩
  · exact Nat.le_of_eq (by rw [hsame])
  · simp [hmore]

theorem length_le_actAll (h : p.Accounted []) (actions : List Action) :
    p.pages.length ≤ (p.actAll actions).pages.length := by
  induction actions generalizing p with
  | nil => exact Nat.le_refl _
  | cons action rest ih => exact Nat.le_trans (length_le_act h action) (ih (h.act action))

end Pool

namespace Context

variable {A : Arithmetic} {c : Context} {living : List Calculation} {keepGoing : Bool}
  {items : List Item} {e : Error}

theorem compiled_of_refused (hfreeze : (c.tryAll A keepGoing items).freezeResult = .error e) :
    Batch.compiled (c.compileBatch A keepGoing items).slots = [] := by
  rw [Batch.compiled, List.filterMap_eq_nil_iff, (c.compileBatch_closing A keepGoing items).slots,
    hfreeze]
  intro slot hslot
  obtain ⟨before, -, rfl⟩ := List.mem_map.1 hslot
  exact Slot.calculation?_retracted e before

theorem Keeps.restored (h : c.Keeps living) {c' : Context} (hafter : c'.Keeps living)
    (hidle : c'.Idle) (hruns : c.Runs c') {before : Pool} (hpool : c.pool? = some before) :
    ∃ after, c'.pool? = some after ∧ before.Restored after := by
  obtain ⟨actions, hactions⟩ := hruns
  rw [hpool, Option.map_some] at hactions
  refine ⟨_, hactions, ?_⟩
  obtain ⟨foundry, hengine, rfl⟩ := pool?_eq_some_iff.1 hpool
  obtain ⟨foundry', hengine', hpool'⟩ := pool?_eq_some_iff.1 hactions
  have house := h.house foundry hengine
  have house' := hafter.house foundry' hengine'
  rw [hpool'] at house'
  refine .of_headcount house house' (fun id => ?_) (Pool.length_le_actAll house.accounted actions)
    (hidle _ hactions)
  rw [headcount_tenantsOf, headcount_tenantsOf]

end Context

/-- Whatever the commands before were and whatever else was refused in the course of the batch: if its
code cannot be made executable at the end then nothing of it is left but free pages. -/
theorem Session.compileBatch_retracted (A : Arithmetic) (commands : List Command) (id : Nat)
    (c : Context) (hc : (Session.empty.stepAll A commands).context? id = some c) (before : Pool)
    (hpool : c.pool? = some before) (keepGoing : Bool) (items : List Item) (e : Error)
    (hfreeze : (c.tryAll A keepGoing items).freezeResult = .error e) :
    ∃ after, (c.compileBatch A keepGoing items).context.pool? = some after ∧ before.Restored after ∧
      (∀ k, .compiled k ∉ (c.compileBatch A keepGoing items).slots) ∧
      (c.compileBatch A keepGoing items).context.live = c.live := by
  obtain ⟨hkeeps, hidle⟩ := (InOrder.empty.stepAll A commands).context hc
  obtain ⟨hkept, hsettled⟩ := hkeeps.compileBatch hidle A keepGoing items
  have hnone := Context.compiled_of_refused hfreeze
  rw [hnone, List.append_nil] at hkept
  obtain ⟨after, hafter, hrestored⟩ :=
    hkeeps.restored hkept hsettled (c.compileBatch_runs A keepGoing items) hpool
  refine ⟨after, hafter, hrestored, fun k hk => ?_, hkept.live.trans hkeeps.live.symm⟩
  have hmem : k ∈ Batch.compiled (c.compileBatch A keepGoing items).slots :=
    List.mem_filterMap.2 ⟨_, hk, rfl⟩
  rw [hnone] at hmem
  contradiction

/-- Two items fill a page, which is frozen when the third one needs another. That one is refused, so
that the fourth one opens it, and it cannot be frozen at the end. -/
theorem Session.compileBatch_retracted_frozen :
    let commands : List Command :=
      [.newObserved ⟨.streamed .whole 0, ⟨32, by decide⟩, fun n _ => n = 12 ∨ n = 16⟩ .optimized,
        .compileItem 0 ⟨"$0", ⟨[], 1⟩⟩]
    let items : List Item := ["1", "2", "3", "4"].map fun source => ⟨source, ⟨[], 0⟩⟩
    let refs (c : Context) : Option (List Nat) := c.pool?.map (·.pages.map Page.refs)
    ∃ c before after, (Session.empty.stepAll .whole commands).context? 0 = some c ∧
      c.pool? = some before ∧ refs c = some [1] ∧
      refs (c.tryAll .whole true items).context = some [1, 2, 1] ∧
      (c.tryAll .whole true items).freezeResult = .error (.allocation (.refused .freeze)) ∧
      (c.compileBatch .whole true items).context.pool? = some after ∧
      refs (c.compileBatch .whole true items).context = some [1, 0, 0] ∧ before.Restored after ∧
      (∀ k, .compiled k ∉ (c.compileBatch .whole true items).slots) ∧
      (c.compileBatch .whole true items).context.live = c.live := by
  intro commands items refs
  obtain ⟨after, hafter, hrestored⟩ :=
    compileBatch_retracted .whole commands 0 _ rfl _ rfl true items _ rfl
  exact ⟨_, _, after, rfl, rfl, rfl, rfl, rfl, hafter, rfl, hrestored⟩

end Reckoner
