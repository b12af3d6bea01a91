import Reckoner.Proofs.Page.Protection
import Reckoner.Proofs.Page.Supply

/-! The memory of a pool is bounded by its use. If every piece of code fits in one page then all pages
are of one length, so that any free page will do and a new one is asked for only if none is free. -/
namespace Reckoner

theorem alignUp_eq_self {n step : Nat} (hpos : 0 < n) (hle : n ≤ step) : alignUp n step = step := by
  have hone : (n + step - 1) / step = 1 := Nat.div_eq_of_lt_le (by omega) (by omega)
  rw [alignUp, hone, Nat.one_mul]

namespace Pool

variable {p q : Pool} {id need : Nat} {code : List UInt8} {pack : Bool}
  {events rest : List Page.Event}

def FreezeRefused (events : List Page.Event) : Prop :=
  ∃ id length, .refused (.freeze id length) ∈ events

theorem FreezeRefused.append_left (h : FreezeRefused events) : FreezeRefused (events ++ rest) := by
  obtain ⟨id, length, hmem⟩ := h
  exact ⟨id, length, List.mem_append_left rest hmem⟩

theorem FreezeRefused.append_right (h : FreezeRefused rest) : FreezeRefused (events ++ rest) := by
  obtain ⟨id, length, hmem⟩ := h
  exact ⟨id, length, List.mem_append_right events hmem⟩

/-- The stock of pages before and after an action that places code of `need` bytes, or no code. A new
page is active at the end unless it could not be frozen. -/
structure Stocks (p : Pool) (need : Nat) (events : List Page.Event) (q : Pool) : Prop where
  history : q.allocator.history = p.allocator.history ++ events
  pageSize : q.allocator.pageSize = p.allocator.pageSize
  lengths : q.lengths = p.lengths ∨
    q.lengths = p.lengths ++ [p.lengthFor need] ∧ p.Short need ∧
      (q.active.length = p.active.length + 1 ∨ FreezeRefused events)
  allocates : ∀ e ∈ events, ∀ length, e.request? = some (.allocate length) → p.Short need

theorem Stocks.steady (hhistory : q.allocator.history = p.allocator.history ++ events)
    (hpageSize : q.allocator.pageSize = p.allocator.pageSize) (hlengths : q.lengths = p.lengths)
    (hrequests : ∀ e ∈ events, ∀ length, e.request? ≠ some (.allocate length)) :
    p.Stocks need events q :=
  ⟨hhistory, hpageSize, .inl hlengths, fun e he length hlength =>
    absurd hlength (hrequests e he length)⟩

theorem Supplies.stocks {r : Pool} (h : p.Supplies need events q)
    (hhistory : r.allocator.history = q.allocator.history ++ rest)
    (hpageSize : r.allocator.pageSize = q.allocator.pageSize) (hlengths : r.lengths = q.lengths)
    (hactive : r.active.length = q.active.length + 1 ∨ FreezeRefused rest)
    (hrequests : ∀ e ∈ rest, ∀ length, e.request? ≠ some (.allocate length)) :
    p.Stocks need (events ++ rest) r where
  history := by rw [hhistory, h.history, List.append_assoc]
  pageSize := hpageSize.trans h.pageSize
  lengths := by
    rw [hlengths, ← h.active]
    rcases h.lengths with hsame | ⟨hmore, hshort⟩
    · exact .inl hsame
    · refine .inr ⟨hmore, hshort, ?_⟩
      exact hactive.imp_right FreezeRefused.append_right
  allocates := by
    intro e he length hlength
    rcases List.mem_append.1 he with he | he
    · exact h.allocates e he length hlength
    · exact absurd hlength (hrequests e he length)

theorem length_activate (h : id ∉ p.active) :
    (p.activate id).active.length = p.active.length + 1 := by
  rw [activate, List.insert_of_not_mem h, List.length_cons]

theorem PlacingAnew.stocks {outcome : Except Error Placement × Pool}
    (h : p.PlacingAnew code pack outcome) (hpool : p.Accounted []) :
    ∃ events, p.Stocks code.length events outcome.2 := by
  cases h with
  | noPage e q hacquire =>
    obtain ⟨events, hsupplies⟩ := hacquire.supplies
    refine ⟨events, hsupplies.history, hsupplies.pageSize, .inl ?_, hsupplies.allocates⟩
    cases hacquire <;> rfl
  | inProgress id q hacquire hpack =>
    obtain ⟨events, hsupplies⟩ := hacquire.supplies
    have hidle : id ∉ q.active := (hpool.acquired hacquire).1.not_mem_of_held.1
    exact ⟨_, hsupplies.stocks rfl rfl (lengths_write q id 0 code) (.inl (length_activate hidle))
      (by simp [Page.Event.request?])⟩
  | executable id q hacquire hpack =>
    obtain ⟨events, hsupplies⟩ := hacquire.supplies
    have hidle : id ∉ q.active := (hpool.acquired hacquire).1.not_mem_of_held.1
    have hhistory := frozen_history (q.write id 0 code) id
    rw [write_history, List.append_assoc] at hhistory
    refine ⟨_, hsupplies.stocks hhistory rfl ?_ (.inl (length_activate hidle)) ?_⟩
    · exact (lengths_frozen _ id).trans (lengths_write q id 0 code)
    · simp [Page.Event.request?]
  | givenBack id q hacquire hpack hrefuses =>
    obtain ⟨events, hsupplies⟩ := hacquire.supplies
    have hrefused : .refused (.freeze id ((q.write id 0 code).lengthOf id)) ∈
        [.wrote id 0 code.length] ++ [Page.Event.refused (.freeze id _)] :=
      List.mem_append_right _ (List.mem_singleton_self _)
    refine ⟨_, hsupplies.stocks (List.append_assoc _ _ _) rfl ?_ (.inr ⟨id, _, hrefused⟩) ?_⟩
    · exact (lengths_giveBack _ id).trans (lengths_write q id 0 code)
    · simp [Page.Event.request?]

theorem Stocks.flushed (h : { p.frozen id with pending := none }.Stocks need events q) :
    p.Stocks need ([.granted (.freeze id (p.lengthOf id)), .frozen id] ++ events) q := by
  have hlengths : ({ p.frozen id with pending := none } : Pool).lengths = p.lengths :=
    lengths_frozen p id
  have hshort : ({ p.frozen id with pending := none } : Pool).Short need → p.Short need := by
    intro hshort j hj
    have hj := hshort j hj
    rwa [lengthOf_eq_getD, hlengths, ← lengthOf_eq_getD] at hj
  refine ⟨?_, h.pageSize, ?_, ?_⟩
  · rw [h.history, ← List.append_assoc, ← frozen_history]
  · rcases h.lengths with hsame | ⟨hmore, hnone, hactive⟩
    · exact .inl (hsame.trans hlengths)
    · refine .inr ⟨hmore.trans (by rw [hlengths]; rfl), hshort hnone, ?_⟩
      exact hactive.imp_right FreezeRefused.append_right
  · intro e he length hlength
    rcases List.mem_append.1 he with he | he
    · simp only [List.mem_cons, List.not_mem_nil, or_false] at he
      rcases he with rfl | rfl <;> simp [Page.Event.request?] at hlength
    · exact hshort (h.allocates e he length hlength)

theorem Placing.stocks {outcome : Except Error Placement × Pool}
    (h : p.Placing code pack outcome) (hpool : p.Accounted []) :
    ∃ events, p.Stocks code.length events outcome.2 := by
  cases h with
  | joined id hpending hpack hroom =>
    refine ⟨_, .steady (List.append_assoc _ _ _) rfl ?_ (by simp [Page.Event.request?])⟩
    exact lengths_write p id _ code
  | notFlushed id hpending hpack hfull hrefuses =>
    exact ⟨_, .steady rfl rfl rfl (by simp [Page.Event.request?])⟩
  | flushed id hpending hpack hfull outcome hplace =>
    obtain ⟨events, hstocks⟩ := hplace.stocks (hpool.flush hpending)
    exact ⟨_, hstocks.flushed⟩
  | anew hpending outcome hplace => exact hplace.stocks hpool

theorem FreezingPending.stocks {outcome : Except Error Unit × Pool} (h : p.FreezingPending outcome) :
    ∃ events, p.Stocks 0 events outcome.2 := by
  cases h with
  | idle hpending => exact ⟨_, .steady (List.append_nil _).symm rfl rfl (by simp)⟩
  | granted id hpending =>
    exact ⟨_, .steady (frozen_history p id) rfl (lengths_frozen p id)
      (by simp [Page.Event.request?])⟩
  | refused id hpending hrefuses =>
    exact ⟨_, .steady rfl rfl rfl (by simp [Page.Event.request?])⟩

theorem Releasing.stocks (h : p.Releasing id q) : ∃ events, p.Stocks 0 events q := by
  cases h with
  | absent hpage => exact ⟨_, .steady (List.append_nil _).symm rfl rfl (by simp)⟩
  | kept page hpage hrefs =>
    exact ⟨_, .steady (List.append_nil _).symm rfl (lengths_update fun _ => rfl) (by simp)⟩
  | vacated page hpage hrefs hactive =>
    exact ⟨_, .steady rfl rfl (lengths_update fun _ => rfl) (by simp [Page.Event.request?])⟩
  | emptied page hpage hrefs hactive =>
    exact ⟨_, .steady (List.append_nil _).symm rfl (lengths_update fun _ => rfl) (by simp)⟩

def Action.demand : Action → Nat
  | place code _ => code.length
  | freezePending | release _ => 0

theorem act_stocks (hpool : p.Accounted []) (action : Action) :
    ∃ events, p.Stocks action.demand events (p.act action) := by
  cases action with
  | place code pack => exact (p.place_outcome code pack).stocks hpool
  | freezePending => exact p.freezePending_outcome.stocks
  | release id => exact (p.release_outcome id).stocks

/-! The count of pages against the greatest count of active pages. -/

def peakActive (p : Pool) : List Action → Nat
  | [] => p.active.length
  | action :: rest => max p.active.length ((p.act action).peakActive rest)

theorem active_le_peakActive (p : Pool) (actions : List Action) :
    p.active.length ≤ p.peakActive actions := by
  cases actions with
  | nil => exact Nat.le_refl _
  | cons action rest => exact Nat.le_max_left _ _

/-- A pool some time after its start, when at most `peak` pages have been active at once: all pages
are of one length, and there is at most one more than were active. -/
structure Frugal (start p : Pool) (peak : Nat) (events : List Page.Event) : Prop where
  accounted : p.Accounted []
  history : p.allocator.history = start.allocator.history ++ events
  pageSize : p.allocator.pageSize = start.allocator.pageSize
  uniform : ∀ length ∈ p.lengths, length = start.allocator.pageSize
  active_le : p.active.length ≤ peak
  peak_le : peak ≤ p.pages.length
  le_peak : p.pages.length ≤ peak + 1
  le_of_willing : ¬ FreezeRefused events → p.pages.length ≤ peak

theorem Accounted.length_add (h : p.Accounted []) :
    p.active.length + p.free.length = p.pages.length := by
  simpa using h.partition.length_eq

namespace Frugal

variable {start : Pool} {peak : Nat}

theorem empty {a : Allocator} (h : 0 < a.pageSize) :
    (Pool.empty a).Frugal (Pool.empty a) 0 [] where
  accounted := .empty h
  history := (List.append_nil _).symm
  pageSize := rfl
  uniform := by simp [Pool.empty, Pool.lengths]
  active_le := Nat.le_refl 0
  peak_le := Nat.le_refl 0
  le_peak := Nat.zero_le 1
  le_of_willing _ := Nat.le_refl 0

theorem lengthFor_eq (h : start.Frugal p peak events) (hfits : need ≤ start.allocator.pageSize) :
    p.lengthFor need = start.allocator.pageSize := by
  have hpos := h.accounted.pageSize
  rw [lengthFor, h.pageSize]
  rw [h.pageSize] at hpos
  exact alignUp_eq_self (by omega) (by omega)

theorem free_eq_nil (h : start.Frugal p peak events) (hfits : need ≤ start.allocator.pageSize)
    (hshort : p.Short need) : p.free = [] := by
  apply List.eq_nil_iff_forall_not_mem.2
  intro j hj
  obtain ⟨page, hpage, -⟩ := h.accounted.vacant j hj
  have huniform : page.length = start.allocator.pageSize :=
    h.uniform _ (List.mem_map_of_mem (List.mem_of_getElem? hpage))
  have hlt := hshort j hj
  rw [lengthOf_eq hpage, h.lengthFor_eq hfits, huniform] at hlt
  exact Nat.lt_irrefl _ hlt

theorem act (h : start.Frugal p peak events) {action : Action}
    (hfits : action.demand ≤ start.allocator.pageSize) :
    ∃ more, start.Frugal (p.act action) (max peak (p.act action).active.length)
      (events ++ more) := by
  obtain ⟨more, hstocks⟩ := act_stocks h.accounted action
  have haccounted := h.accounted.act action
  have hhistory : (p.act action).allocator.history =
      start.allocator.history ++ (events ++ more) := by
    rw [hstocks.history, h.history, List.append_assoc]
  have hpageSize := hstocks.pageSize.trans h.pageSize
  have hbefore := h.accounted.length_add
  have hafter := haccounted.length_add
  have hactive_le := h.active_le
  have hpeak_le := h.peak_le
  have hle_peak := h.le_peak
  refine ⟨more, ?_⟩
  rcases hstocks.lengths with hsame | ⟨hmore, hshort, hactive⟩
  · have hcount : (p.act action).pages.length = p.pages.length := by
      rw [← length_lengths, hsame, length_lengths]
    refine ⟨haccounted, hhistory, hpageSize, hsame ▸ h.uniform, by omega, by omega, by omega, ?_⟩
    intro hwilling
    have hle := h.le_of_willing fun hrefused => hwilling hrefused.append_left
    omega
  · have hcount : (p.act action).pages.length = p.pages.length + 1 := by
      rw [← length_lengths, hmore, List.length_append, length_lengths, List.length_singleton]
    -- No page was free, so all pages before the new one were active.
    have hnone : p.free.length = 0 := List.length_eq_zero_iff.2 (h.free_eq_nil hfits hshort)
    refine ⟨haccounted, hhistory, hpageSize, ?_, by omega, by omega, by omega, ?_⟩
    · rw [hmore, h.lengthFor_eq hfits]
      simpa [or_imp, forall_and] using h.uniform
    · intro hwilling
      rcases hactive with hactive | hrefused
      · omega
      · exact absurd hrefused.append_right hwilling

theorem actAll (h : start.Frugal p peak events) {actions : List Action}
    (hfits : ∀ action ∈ actions, action.demand ≤ start.allocator.pageSize) :
    ∃ all, start.Frugal (p.actAll actions) (max peak (p.peakActive actions)) all := by
  induction actions generalizing p peak events with
  | nil => exact ⟨events, by rwa [peakActive, Nat.max_eq_left h.active_le]⟩
  | cons action rest ih =>
    obtain ⟨hfirst, hrest⟩ := List.forall_mem_cons.1 hfits
    obtain ⟨more, hact⟩ := h.act hfirst
    have hpeak : max peak (p.peakActive (action :: rest)) =
        max (max peak (p.act action).active.length) ((p.act action).peakActive rest) := by
      have hbefore := h.active_le
      have hafter := (p.act action).active_le_peakActive rest
      rw [peakActive]
      omega
    rw [hpeak]
    exact ih hact hrest

end Frugal

structure Thrifty (start : Pool) (actions : List Action) : Prop where
  -- There is at most one page more than were ever active at once.
  allocations_le : (start.actAll actions).allocations ≤ start.peakActive actions + 1
  -- There is none if no page could not be frozen.
  allocations_eq : ¬ FreezeRefused ((start.actAll actions).eventsSince start) →
    (start.actAll actions).allocations = start.peakActive actions
  -- Memory is asked for only if no page is free.
  requests : ∀ before action after, actions = before ++ action :: after →
    ∀ e ∈ ((start.actAll before).act action).eventsSince (start.actAll before),
      ∀ length, e.request? = some (.allocate length) → (start.actAll before).free = []

/-- If each piece of code fits in one page then the pages of a pool are as many as were active at
once, and at most one more if some page could not be frozen. -/
theorem actAll_thrifty (a : Allocator) (hpageSize : 0 < a.pageSize) (actions : List Action)
    (hfits : ∀ code pack, .place code pack ∈ actions → code.length ≤ a.pageSize) :
    (Pool.empty a).Thrifty actions := by
  have hdemand : ∀ action ∈ actions, action.demand ≤ a.pageSize := by
    intro action haction
    cases action with
    | place code pack => exact hfits code pack haction
    | freezePending => exact Nat.zero_le _
    | release id => exact Nat.zero_le _
  obtain ⟨events, h⟩ := (Frugal.empty hpageSize).actAll hdemand
  have hle := h.le_peak
  have hpeak := h.peak_le
  rw [Nat.zero_max, ← h.accounted.allocations] at hle hpeak
  refine ⟨hle, ?_, ?_⟩
  · rw [eventsSince_eq h.history]
    intro hwilling
    have hle := h.le_of_willing hwilling
    rw [Nat.zero_max, ← h.accounted.allocations] at hle
    exact Nat.le_antisymm hle hpeak
  · rintro before action after rfl e he length hlength
    have hbefore : ∀ action ∈ before, action.demand ≤ a.pageSize := fun action haction =>
      hdemand action (List.mem_append_left _ haction)
    obtain ⟨earlier, hfrugal⟩ := (Frugal.empty hpageSize).actAll hbefore
    obtain ⟨more, hstocks⟩ := act_stocks hfrugal.accounted action
    rw [eventsSince_eq hstocks.history] at he
    exact hfrugal.free_eq_nil (hdemand action (by simp)) (hstocks.allocates e he length hlength)

/-- The first page cannot be frozen, so that it is there while none was active; it is taken next, and
another one is opened only since it is in use. -/
theorem actAll_thrifty_spare :
    let p := Pool.empty ⟨16, fun n _ => n = 3, []⟩
    let actions : List Action := [.place [2, 3] true, .place [4] false, .release 0, .release 1,
      .place [5] false]
    (p.actAll [.place [1] false]).allocations = 1 ∧ p.peakActive [.place [1] false] = 0 ∧
    p.Thrifty [.place [1] false] ∧
    (p.actAll (.place [1] false :: actions)).allocations = 2 ∧
    p.peakActive (.place [1] false :: actions) = 2 ∧ p.Thrifty (.place [1] false :: actions) := by
  refine ⟨by decide, by decide, ?_, by decide, by decide, ?_⟩
  · exact actAll_thrifty _ (by decide) _ (by simp)
  · exact actAll_thrifty _ (by decide) _ (by simp +contextual [or_imp])

end Pool

end Reckoner
