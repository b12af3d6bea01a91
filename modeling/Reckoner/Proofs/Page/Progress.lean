import Mathlib.Data.List.Perm.Basic
import Reckoner.Proofs.Page.Tenancy

/-! The page in progress. Only code that is placed while it is in progress lives there, so it stops
being in progress when that code has gone; all other code is executable. -/
namespace Reckoner

theorem Tenant.Apart.symm {t u : Tenant} (h : t.Apart u) : u.Apart t :=
  fun hpage => (h hpage.symm).symm

theorem headcount_perm {tenants tenants' : List Tenant} (h : tenants.Perm tenants') (id : Nat) :
    headcount tenants id = headcount tenants' id :=
  h.countP_eq _

theorem Hosts.perm {pages : List Page} {tenants tenants' : List Tenant} (h : Hosts pages tenants)
    (hperm : tenants.Perm tenants') : Hosts pages tenants' where
  refs id page hpage := by rw [h.refs id page hpage, headcount_perm hperm]
  lives t ht := h.lives t (hperm.mem_iff.2 ht)
  apart := (hperm.pairwise_iff Tenant.Apart.symm).1 h.apart

namespace Pool

variable {p q : Pool} {tenants : List Tenant} {code : List UInt8} {pack : Bool}

theorem Acquisition.pending {need : Nat} {result : Except Error Nat}
    (h : p.Acquisition need (result, q)) : q.pending = p.pending := by
  cases h <;> rfl

theorem PlacingAnew.pending {outcome : Except Error Placement × Pool}
    (h : p.PlacingAnew code pack outcome) (hpool : p.Accounted []) (hhosts : Hosts p.pages tenants)
    {id : Nat} (hid : outcome.2.pending = some id) :
    p.pending = some id ∨ pack = true ∧ headcount tenants id = 0 := by
  cases h with
  | noPage e q hacquire => exact .inl (hacquire.pending ▸ hid)
  | inProgress id' q hacquire hpack =>
    obtain ⟨-, -, page, hpage, hvacant, -⟩ := hpool.acquired hacquire
    obtain rfl : id' = id := Option.some.inj hid
    have hrefs := (hhosts.acquired hacquire).refs id' page hpage
    rw [hvacant.refs] at hrefs
    exact .inr ⟨hpack, hrefs.symm⟩
  | executable id' q hacquire hpack => exact .inl (hacquire.pending ▸ hid)
  | givenBack id' q hacquire hpack => exact .inl (hacquire.pending ▸ hid)

theorem Placing.pending {outcome : Except Error Placement × Pool}
    (h : p.Placing code pack outcome) (hpool : p.Accounted []) (hhosts : Hosts p.pages tenants)
    {id : Nat} (hid : outcome.2.pending = some id) :
    p.pending = some id ∨ pack = true ∧ headcount tenants id = 0 := by
  cases h with
  | joined id' hpending hpack hroom => exact .inl hid
  | notFlushed id' hpending hpack hfull => exact .inl hid
  | flushed id' hpending hpack hfull outcome hplace =>
    have hfrozen := hhosts.pendingFrozen hpool (.granted id' hpending)
    rcases hplace.pending (hpool.flush hpending) hfrozen hid with hnone | hempty
    · contradiction
    · exact .inr hempty
  | anew hpending outcome hplace => exact hplace.pending hpool hhosts hid

theorem pending_of_emptied {id id' : Nat} (h : (p.emptied id).pending = some id') :
    p.pending = some id' := by
  by_cases hpending : p.pending = some id
  · simp [emptied, hpending] at h
  · simpa [emptied, hpending] using h

theorem Releasing.pending {id : Nat} (h : p.Releasing id q) {id' : Nat}
    (hid : q.pending = some id') : p.pending = some id' := by
  cases h with
  | absent hpage => exact hid
  | kept page hpage hrefs => exact hid
  | vacated page hpage hrefs hactive => exact pending_of_emptied hid
  | emptied page hpage hrefs hactive => exact pending_of_emptied hid

end Pool

namespace House

variable {house : House}

theorem InOrder.headcount_pos (h : house.InOrder) {id : Nat} (hid : house.pool.pending = some id) :
    0 < headcount house.tenants id := by
  obtain ⟨page, hpage, hoccupied⟩ := h.accounted.occupied id (h.accounted.pending id hid)
  rw [← h.hosts.refs id page hpage]
  exact hoccupied.refs

theorem InOrder.executable (h : house.InOrder) {t : Tenant} (ht : t ∈ house.tenants)
    (hpending : house.pool.pending ≠ some t.page) :
    ∃ page, house.pool.pages[t.page]? = some page ∧ page.protection = .executable := by
  obtain ⟨page, hpage, -⟩ := h.hosts.lives t ht
  refine ⟨page, hpage, ?_⟩
  rcases h.accounted.active_or_free hpage with ⟨-, hoccupied⟩ | ⟨-, hvacant⟩
  · rw [Pool.protectionOf, if_neg hpending] at hoccupied
    exact hoccupied.protection
  · have hempty := h.hosts.refs t.page page hpage
    rw [hvacant.refs] at hempty
    exact absurd rfl (headcount_eq_zero_iff.1 hempty.symm t ht)

end House

end Reckoner
